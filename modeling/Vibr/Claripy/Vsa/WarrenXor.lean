import Mathlib.Data.Set.NAry
import Vibr.Claripy.Vsa.WarrenExact

/-!
# Bounds of exclusive disjunctions

The loops go on after they have changed a bound. Where both ranges have integers with a bit and integers without it, two
integers that agree on the bit can be any ones; there, one range has the lowest and the other the highest low bits.
-/

namespace Claripy.Vsa.WarrenMethods

/-- The loop of `min_xor` from the mask `2 ^ (k - 1)` on. -/
def minXorLoop (a b c d : Nat) : Nat → Nat
  | 0 => a ^^^ c
  | k + 1 =>
    let m := 2 ^ k
    if !a.testBit k && c.testBit k then
      let temp := (a ||| m) / m * m
      minXorLoop (if temp ≤ b then temp else a) b c d k
    else if a.testBit k && !c.testBit k then
      let temp := (c ||| m) / m * m
      minXorLoop a b (if temp ≤ d then temp else c) d k
    else minXorLoop a b c d k

/-- The least exclusive disjunction of an integer from `a` to `b` and one from `c` to `d`. -/
def minXor (a b c d w : Nat) : Nat := minXorLoop a b c d w

/-- The loop of `max_xor` from the mask `2 ^ (k - 1)` on. -/
def maxXorLoop (a b c d : Nat) : Nat → Nat
  | 0 => b ^^^ d
  | k + 1 =>
    let m := 2 ^ k
    if b.testBit k && d.testBit k then
      let temp := (b - m) ||| (m - 1)
      if temp ≥ a then maxXorLoop a temp c d k
      else
        let temp := (d - m) ||| (m - 1)
        maxXorLoop a b c (if temp ≥ c then temp else d) k
    else maxXorLoop a b c d k

/-- The greatest exclusive disjunction of an integer from `a` to `b` and one from `c` to `d`. -/
def maxXor (a b c d w : Nat) : Nat := maxXorLoop a b c d w

variable {a b c d k w x y : Nat}

theorem minXorLoop_succ (a b c d k : Nat) : minXorLoop a b c d (k + 1) =
    if !a.testBit k && c.testBit k then minXorLoop (if raised a k ≤ b then raised a k else a) b c d k
    else if a.testBit k && !c.testBit k then minXorLoop a b (if raised c k ≤ d then raised c k else c) d k
    else minXorLoop a b c d k := rfl

theorem maxXorLoop_succ (a b c d k : Nat) : maxXorLoop a b c d (k + 1) =
    if b.testBit k && d.testBit k then
      if lowered b k ≥ a then maxXorLoop a (lowered b k) c d k
      else maxXorLoop a b c (if lowered d k ≥ c then lowered d k else d) k
    else maxXorLoop a b c d k := rfl

/-! ## The bounds are attained -/

theorem results_mono {f : Nat → Nat → Nat} {a' b' c' d' : Nat} (ha : a ≤ a') (hb : b' ≤ b) (hc : c ≤ c') (hd : d' ≤ d) :
    results f a' b' c' d' ⊆ results f a b c d :=
  Set.image2_subset (Set.Icc_subset_Icc ha hb) (Set.Icc_subset_Icc hc hd)

theorem minXorLoop_mem (hab : a ≤ b) (hcd : c ≤ d) : minXorLoop a b c d k ∈ results (· ^^^ ·) a b c d := by
  induction k generalizing a c with
  | zero => exact mem_results le_rfl hab le_rfl hcd
  | succ k ih =>
    rw [minXorLoop_succ]
    split
    · next hbits =>
        rw [Bool.and_eq_true, Bool.not_eq_true'] at hbits
        split
        · next htemp => exact results_mono (le_raised hbits.1) le_rfl le_rfl le_rfl (ih htemp hcd)
        · exact ih hab hcd
    split
    · next hbits =>
        rw [Bool.and_eq_true, Bool.not_eq_true'] at hbits
        split
        · next htemp => exact results_mono le_rfl le_rfl (le_raised hbits.2) le_rfl (ih hab htemp)
        · exact ih hab hcd
    · exact ih hab hcd

theorem maxXorLoop_mem (hab : a ≤ b) (hcd : c ≤ d) : maxXorLoop a b c d k ∈ results (· ^^^ ·) a b c d := by
  induction k generalizing b d with
  | zero => exact mem_results hab le_rfl hcd le_rfl
  | succ k ih =>
    rw [maxXorLoop_succ]
    split
    · next hbits =>
        rw [Bool.and_eq_true] at hbits
        split
        · next htemp => exact results_mono le_rfl (lowered_le hbits.1) le_rfl le_rfl (ih htemp hcd)
        · split
          · next htemp => exact results_mono le_rfl le_rfl le_rfl (lowered_le hbits.2) (ih hab htemp)
          · exact ih hab hcd
    · exact ih hab hcd

/-! ## High bits -/

theorem xor_shiftRight_eq (hx : x >>> k = a >>> k) (hy : y >>> k = c >>> k) : (x ^^^ y) >>> k = (a ^^^ c) >>> k := by
  rw [Nat.shiftRight_xor_distrib, hx, hy, ← Nat.shiftRight_xor_distrib]

theorem xor_shiftRight_of_bit (hx : x >>> (k + 1) = a >>> (k + 1)) (hy : y >>> (k + 1) = c >>> (k + 1))
    (hbit : (x.testBit k ^^ y.testBit k) = (a.testBit k ^^ c.testBit k)) : (x ^^^ y) >>> k = (a ^^^ c) >>> k := by
  refine shiftRight_eq_of_testBit (xor_shiftRight_eq hx hy) ?_
  rw [Nat.testBit_xor, Nat.testBit_xor, hbit]

theorem testBit_of_shiftRight_eq (h : x >>> k = y >>> k) : x.testBit k = y.testBit k := by
  have := congrArg (fun z => z.testBit 0) h
  rwa [Nat.testBit_shiftRight, Nat.testBit_shiftRight, Nat.add_zero] at this

theorem shiftRight_succ_of_eq (h : x >>> k = y >>> k) : x >>> (k + 1) = y >>> (k + 1) := by
  rw [Nat.shiftRight_succ, Nat.shiftRight_succ, h]

/-- Of two numbers with the same bits above, the one without the bit is less. -/
theorem le_of_testBit (hhigh : x >>> (k + 1) = y >>> (k + 1)) (hx : x.testBit k = false) (hy : y.testBit k = true) :
    x ≤ y := by
  refine (lt_of_shiftRight_lt (k := k) ?_).le
  rw [shiftRight_eq x, shiftRight_eq y, hhigh, hx, hy]
  exact Nat.lt_succ_self _

theorem raised_shiftRight_succ (a k : Nat) : raised a k >>> (k + 1) = a >>> (k + 1) := by
  rw [Nat.shiftRight_succ, raised_shiftRight, Nat.shiftRight_succ, Nat.or_div_two]
  exact Nat.or_zero _

theorem testBit_raised_self (a k : Nat) : (raised a k).testBit k = true := by
  rw [testBit_raised, decide_eq_true rfl, decide_eq_true le_rfl, Bool.or_true]
  rfl

theorem lowered_shiftRight_succ (hb : b.testBit k = true) : lowered b k >>> (k + 1) = b >>> (k + 1) := by
  rw [Nat.shiftRight_succ, lowered_shiftRight, shiftRight_eq b, hb, Bool.toNat_true, Nat.add_sub_cancel,
    Nat.mul_div_cancel_left _ (by decide)]

theorem testBit_lowered_self (hb : b.testBit k = true) : (lowered b k).testBit k = false := by
  rw [testBit_lowered hb, decide_eq_false (Nat.lt_irrefl k), decide_eq_true rfl, Bool.not_true, Bool.and_false]
  rfl

/-! ## The least exclusive disjunction -/

theorem minXorLoop_comm (a b c d k : Nat) : minXorLoop a b c d k = minXorLoop c d a b k := by
  induction k generalizing a c with
  | zero => exact Nat.xor_comm a c
  | succ k ih =>
    rw [minXorLoop_succ, minXorLoop_succ]
    cases a.testBit k <;> cases c.testBit k <;> exact ih _ _

/-- The loop changes no bit above the mask. -/
theorem minXorLoop_shiftRight (a b c d k : Nat) : minXorLoop a b c d k >>> k = (a ^^^ c) >>> k := by
  induction k generalizing a c with
  | zero => rfl
  | succ k ih =>
    have hchanged : ∀ x z, (if raised x k ≤ z then raised x k else x) >>> (k + 1) = x >>> (k + 1) := by
      intro x z
      split
      · exact raised_shiftRight_succ x k
      · rfl
    rw [minXorLoop_succ]
    split
    · exact (shiftRight_succ_of_eq (ih _ _)).trans (xor_shiftRight_eq (hchanged a b) rfl)
    · split
      · exact (shiftRight_succ_of_eq (ih _ _)).trans (xor_shiftRight_eq rfl (hchanged c d))
      · exact shiftRight_succ_of_eq (ih _ _)

theorem testBit_minXorLoop (a b c d k : Nat) : (minXorLoop a b c d k).testBit k = (a.testBit k ^^ c.testBit k) := by
  rw [testBit_of_shiftRight_eq (minXorLoop_shiftRight a b c d k), Nat.testBit_xor]

/-- All bits below the mask are set. -/
theorem filled_spec (a k : Nat) : a ≤ a ||| (2 ^ k - 1) ∧ (a ||| (2 ^ k - 1)) >>> k = a >>> k ∧
    (a ||| (2 ^ k - 1)) % 2 ^ k = 2 ^ k - 1 := by
  have hpos := Nat.two_pow_pos k
  refine ⟨Nat.left_le_or, ?_, ?_⟩
  · rw [Nat.shiftRight_or_distrib, Nat.shiftRight_eq_div_pow (2 ^ k - 1), Nat.div_eq_of_lt (by omega), Nat.or_zero]
  have hlt := Nat.mod_lt (a ||| (2 ^ k - 1)) hpos
  rw [Nat.or_mod_two_pow, Nat.mod_eq_of_lt (show 2 ^ k - 1 < 2 ^ k by omega)] at hlt ⊢
  have hle : 2 ^ k - 1 ≤ a % 2 ^ k ||| (2 ^ k - 1) := Nat.right_le_or
  omega

/-- The step at a bit that only the second bound has: the other integer has it, or the first one can have it too. -/
theorem minXor_step (hax : a ≤ x) (hxb : x ≤ b) (hcy : c ≤ y) (hx : x >>> (k + 1) = a >>> (k + 1))
    (hy : y >>> (k + 1) = c >>> (k + 1)) (ha : a.testBit k = false) (hc : c.testBit k = true)
    (ih : ∀ a', a' ≤ x → x >>> k = a' >>> k → y >>> k = c >>> k → minXorLoop a' b c d k ≤ x ^^^ y) :
    minXorLoop (if raised a k ≤ b then raised a k else a) b c d k ≤ x ^^^ y := by
  have hyk := testBit_of_le hy hcy hc
  have hyc := shiftRight_eq_of_testBit hy (hyk.trans hc.symm)
  cases hxk : x.testBit k with
  | true =>
    -- `x` is at least the changed bound
    have hshift : x >>> k = raised a k >>> k :=
      shiftRight_eq_of_testBit (hx.trans (raised_shiftRight_succ a k).symm) (hxk.trans (testBit_raised_self a k).symm)
    have hle : raised a k ≤ x := by
      rw [le_iff_of_shiftRight_eq hshift.symm, raised_mod]
      exact Nat.zero_le _
    rw [if_pos (hle.trans hxb)]
    exact ih _ hle hshift hyc
  | false =>
    split
    · -- the changed bound makes the bit vanish
      refine le_of_testBit (k := k) ?_ ?_ ?_
      · rw [shiftRight_succ_of_eq (minXorLoop_shiftRight _ _ _ _ _)]
        exact xor_shiftRight_eq ((raised_shiftRight_succ a k).trans hx.symm) hy.symm
      · rw [testBit_minXorLoop, testBit_raised_self, hc]
        rfl
      · rw [Nat.testBit_xor, hxk, hyk]
        rfl
    · exact ih a hax (shiftRight_eq_of_testBit hx (hxk.trans ha.symm)) hyc

theorem minXorLoop_le (hax : a ≤ x) (hxb : x ≤ b) (hcy : c ≤ y) (hyd : y ≤ d) (hx : x >>> k = a >>> k)
    (hy : y >>> k = c >>> k) : minXorLoop a b c d k ≤ x ^^^ y := by
  induction k generalizing a c x y with
  | zero =>
    obtain rfl : x = a := hx
    obtain rfl : y = c := hy
    exact le_rfl
  | succ k ih =>
    rw [minXorLoop_succ]
    cases ha : a.testBit k with
    | false =>
      cases hc : c.testBit k with
      | true => exact minXor_step hax hxb hcy hx hy ha hc fun a' ha' hx' hy' => ih ha' hxb hcy hyd hx' hy'
      | false =>
        show minXorLoop a b c d k ≤ x ^^^ y
        have hhigh : minXorLoop a b c d k >>> (k + 1) = (x ^^^ y) >>> (k + 1) :=
          (shiftRight_succ_of_eq (minXorLoop_shiftRight a b c d k)).trans (xor_shiftRight_eq hx hy).symm
        have hlow : (minXorLoop a b c d k).testBit k = false := by
          rw [testBit_minXorLoop, ha, hc]
          rfl
        cases hxy : (x ^^^ y).testBit k with
        | true => exact le_of_testBit hhigh hlow hxy
        | false =>
          rw [Nat.testBit_xor] at hxy
          cases hxk : x.testBit k with
          | false =>
            rw [hxk, Bool.false_xor] at hxy
            exact ih hax hxb hcy hyd (shiftRight_eq_of_testBit hx (hxk.trans ha.symm))
              (shiftRight_eq_of_testBit hy (hxy.trans hc.symm))
          | true =>
            -- both have the bit, so that both ranges go on beyond the low bits
            have hyk : y.testBit k = true := by
              rw [hxk, Bool.true_xor] at hxy
              simpa using hxy
            have hfill : ∀ {u v : Nat}, v >>> (k + 1) = u >>> (k + 1) → u.testBit k = false →
                v.testBit k = true → u ||| (2 ^ k - 1) ≤ v := by
              intro u v hhigh hu hv
              obtain ⟨-, hshift, -⟩ := filled_spec u k
              refine le_of_testBit ((shiftRight_succ_of_eq hshift).trans hhigh.symm) ?_ hv
              rw [testBit_of_shiftRight_eq hshift, hu]
            obtain ⟨hale, hashift, hamod⟩ := filled_spec a k
            obtain ⟨hcle, hcshift, hcmod⟩ := filled_spec c k
            refine (ih hale ((hfill hx ha hxk).trans hxb) hcle ((hfill hy hc hyk).trans hyd) hashift hcshift).trans ?_
            have hshift : ((a ||| (2 ^ k - 1)) ^^^ (c ||| (2 ^ k - 1))) >>> k = (x ^^^ y) >>> k := by
              rw [xor_shiftRight_eq hashift hcshift]
              refine (xor_shiftRight_of_bit hx hy ?_).symm
              rw [hxk, hyk, ha, hc]
              rfl
            rw [le_iff_of_shiftRight_eq hshift, Nat.xor_mod_two_pow, hamod, hcmod, Nat.xor_self]
            exact Nat.zero_le _
    | true =>
      have hxk := testBit_of_le hx hax ha
      cases hc : c.testBit k with
      | true =>
        exact ih hax hxb hcy hyd (shiftRight_eq_of_testBit hx (hxk.trans ha.symm))
          (shiftRight_eq_of_testBit hy ((testBit_of_le hy hcy hc).trans hc.symm))
      | false =>
        show minXorLoop a b (if raised c k ≤ d then raised c k else c) d k ≤ x ^^^ y
        rw [minXorLoop_comm, Nat.xor_comm]
        refine minXor_step hcy hyd hax hy hx hc ha fun c' hc' hy' hx' => ?_
        rw [minXorLoop_comm, Nat.xor_comm]
        exact ih hax hxb hc' hyd hx' hy'

/-! ## The greatest exclusive disjunction -/

/-- The loop changes no bit above the mask. -/
theorem maxXorLoop_shiftRight (a b c d k : Nat) : maxXorLoop a b c d k >>> k = (b ^^^ d) >>> k := by
  induction k generalizing b d with
  | zero => rfl
  | succ k ih =>
    rw [maxXorLoop_succ]
    split
    · next hbits =>
        rw [Bool.and_eq_true] at hbits
        split
        · exact (shiftRight_succ_of_eq (ih _ _)).trans (xor_shiftRight_eq (lowered_shiftRight_succ hbits.1) rfl)
        refine (shiftRight_succ_of_eq (ih _ _)).trans (xor_shiftRight_eq rfl ?_)
        split
        · exact lowered_shiftRight_succ hbits.2
        · rfl
    · exact shiftRight_succ_of_eq (ih _ _)

theorem testBit_maxXorLoop (a b c d k : Nat) : (maxXorLoop a b c d k).testBit k = (b.testBit k ^^ d.testBit k) := by
  rw [testBit_of_shiftRight_eq (maxXorLoop_shiftRight a b c d k), Nat.testBit_xor]

/-- A number without the bit is at most the changed bound, and has the bits of that from the bit on. -/
theorem le_lowered (hx : x >>> (k + 1) = b >>> (k + 1)) (hb : b.testBit k = true) (hxk : x.testBit k = false) :
    x ≤ lowered b k ∧ x >>> k = lowered b k >>> k := by
  have hshift : x >>> k = lowered b k >>> k :=
    shiftRight_eq_of_testBit (hx.trans (lowered_shiftRight_succ hb).symm) (hxk.trans (testBit_lowered_self hb).symm)
  exact ⟨le_of_shiftRight_le hshift.le (lowered_mod b k), hshift⟩

/-- All bits below the mask are cleared. -/
theorem cleared_spec (d k : Nat) : d / 2 ^ k * 2 ^ k ≤ d ∧ (d / 2 ^ k * 2 ^ k) >>> k = d >>> k ∧
    d / 2 ^ k * 2 ^ k % 2 ^ k = 0 := by
  refine ⟨Nat.div_mul_le_self _ _, ?_, Nat.mul_mod_left _ _⟩
  rw [Nat.shiftRight_eq_div_pow, Nat.mul_div_cancel _ (Nat.two_pow_pos k), Nat.shiftRight_eq_div_pow]

/-- The step at a bit that both bounds have, where the first one is changed. -/
theorem maxXor_step (hcy : c ≤ y) (hyd : y ≤ d) (hx : x >>> (k + 1) = b >>> (k + 1))
    (hy : y >>> (k + 1) = d >>> (k + 1)) (hb : b.testBit k = true) (hd : d.testBit k = true)
    (ih : ∀ x' y', x' ≤ lowered b k → c ≤ y' → y' ≤ d → (x' = x ∨ x' = lowered b k) → x' >>> k = lowered b k >>> k →
      y' >>> k = d >>> k → x' ^^^ y' ≤ maxXorLoop a (lowered b k) c d k) :
    x ^^^ y ≤ maxXorLoop a (lowered b k) c d k := by
  have hhigh : (x ^^^ y) >>> (k + 1) = maxXorLoop a (lowered b k) c d k >>> (k + 1) := by
    rw [shiftRight_succ_of_eq (maxXorLoop_shiftRight a (lowered b k) c d k)]
    exact xor_shiftRight_eq (hx.trans (lowered_shiftRight_succ hb).symm) hy
  have hset : (maxXorLoop a (lowered b k) c d k).testBit k = true := by
    rw [testBit_maxXorLoop, testBit_lowered_self hb, hd]
    rfl
  cases hxy : (x ^^^ y).testBit k with
  | false => exact le_of_testBit hhigh hxy hset
  | true =>
    rw [Nat.testBit_xor] at hxy
    cases hxk : x.testBit k with
    | false =>
      rw [hxk, Bool.false_xor] at hxy
      obtain ⟨hle, hshift⟩ := le_lowered hx hb hxk
      exact ih x y hle hcy hyd (.inl rfl) hshift (shiftRight_eq_of_testBit hy (hxy.trans hd.symm))
    | true =>
      -- the other integer goes below the low bits of its bound
      have hyk : y.testBit k = false := by
        rw [hxk, Bool.true_xor] at hxy
        simpa using hxy
      obtain ⟨hclear, hclearshift, hclearmod⟩ := cleared_spec d k
      have hyclear : y ≤ d / 2 ^ k * 2 ^ k := by
        refine le_of_testBit (hy.trans (shiftRight_succ_of_eq hclearshift).symm) hyk ?_
        rw [testBit_of_shiftRight_eq hclearshift, hd]
      refine le_trans ?_ (ih _ _ le_rfl (hcy.trans hyclear) hclear (.inr rfl) rfl hclearshift)
      have hshift : (x ^^^ y) >>> k = (lowered b k ^^^ d / 2 ^ k * 2 ^ k) >>> k := by
        refine xor_shiftRight_of_bit (hx.trans (lowered_shiftRight_succ hb).symm)
          (hy.trans (shiftRight_succ_of_eq hclearshift).symm) ?_
        rw [hxk, hyk, testBit_lowered_self hb, testBit_of_shiftRight_eq hclearshift, hd]
        rfl
      refine le_of_shiftRight_le hshift.le ?_
      rw [Nat.xor_mod_two_pow, lowered_mod, hclearmod, Nat.xor_zero]

theorem le_maxXorLoop (hax : a ≤ x) (hxb : x ≤ b) (hcy : c ≤ y) (hyd : y ≤ d) (hx : x >>> k = b >>> k)
    (hy : y >>> k = d >>> k) : x ^^^ y ≤ maxXorLoop a b c d k := by
  induction k generalizing b d x y with
  | zero =>
    obtain rfl : x = b := hx
    obtain rfl : y = d := hy
    exact le_rfl
  | succ k ih =>
    rw [maxXorLoop_succ]
    have hxk : x.testBit k = true → b.testBit k = true := testBit_of_le hx.symm hxb
    have hyk : y.testBit k = true → d.testBit k = true := testBit_of_le hy.symm hyd
    by_cases hboth : b.testBit k = true ∧ d.testBit k = true
    · obtain ⟨hb, hd⟩ := hboth
      rw [if_pos (by rw [hb, hd]; rfl)]
      split
      · next htemp =>
          refine maxXor_step hcy hyd hx hy hb hd fun x' y' hx' hcy' hyd' hcase hxs hys => ?_
          refine ih ?_ hx' hcy' hyd' hxs hys
          rcases hcase with rfl | rfl
          · exact hax
          · exact htemp
      next htemp =>
        have hxk := testBit_of_lowered_lt hax hx hb htemp
        have hxshift := shiftRight_eq_of_testBit hx (hxk.trans hb.symm)
        cases hyk : y.testBit k with
        | false =>
          obtain ⟨hle, hshift⟩ := le_lowered hy hd hyk
          rw [if_pos (hcy.trans hle)]
          exact ih hax hxb hcy hle hxshift hshift
        | true =>
          split
          · refine le_of_testBit (k := k) ?_ ?_ ?_
            · rw [shiftRight_succ_of_eq (maxXorLoop_shiftRight _ _ _ _ _)]
              exact xor_shiftRight_eq hx (hy.trans (lowered_shiftRight_succ hd).symm)
            · rw [Nat.testBit_xor, hxk, hyk]
              rfl
            · rw [testBit_maxXorLoop, hb, testBit_lowered_self hd]
              rfl
          · exact ih hax hxb hcy hyd hxshift (shiftRight_eq_of_testBit hy (hyk.trans hd.symm))
    · rw [if_neg (by rwa [Bool.and_eq_true])]
      by_cases hsame : x.testBit k = b.testBit k ∧ y.testBit k = d.testBit k
      · exact ih hax hxb hcy hyd (shiftRight_eq_of_testBit hx hsame.1) (shiftRight_eq_of_testBit hy hsame.2)
      -- only one bound has the bit, and its integer does not
      refine le_of_testBit (k := k) ((xor_shiftRight_eq hx hy).trans
        (shiftRight_succ_of_eq (maxXorLoop_shiftRight a b c d k)).symm) ?_ ?_
      · rw [Nat.testBit_xor]
        revert hboth hxk hyk hsame
        cases x.testBit k <;> cases y.testBit k <;> cases b.testBit k <;> cases d.testBit k <;> simp
      · rw [testBit_maxXorLoop]
        revert hboth hxk hyk hsame
        cases x.testBit k <;> cases y.testBit k <;> cases b.testBit k <;> cases d.testBit k <;> simp

/-! ## Both bounds -/

theorem minXor_isLeast (hab : a ≤ b) (hcd : c ≤ d) (hb : b < 2 ^ w) (hd : d < 2 ^ w) :
    IsLeast (results (· ^^^ ·) a b c d) (minXor a b c d w) := by
  refine ⟨minXorLoop_mem hab hcd, ?_⟩
  rintro _ ⟨x, ⟨hax, hxb⟩, y, ⟨hcy, hyd⟩, rfl⟩
  exact minXorLoop_le hax hxb hcy hyd
    ((shiftRight_of_lt (hxb.trans_lt hb)).trans (shiftRight_of_lt (hab.trans_lt hb)).symm)
    ((shiftRight_of_lt (hyd.trans_lt hd)).trans (shiftRight_of_lt (hcd.trans_lt hd)).symm)

theorem maxXor_isGreatest (hab : a ≤ b) (hcd : c ≤ d) (hb : b < 2 ^ w) (hd : d < 2 ^ w) :
    IsGreatest (results (· ^^^ ·) a b c d) (maxXor a b c d w) := by
  refine ⟨maxXorLoop_mem hab hcd, ?_⟩
  rintro _ ⟨x, ⟨hax, hxb⟩, y, ⟨hcy, hyd⟩, rfl⟩
  exact le_maxXorLoop hax hxb hcy hyd ((shiftRight_of_lt (hxb.trans_lt hb)).trans (shiftRight_of_lt hb).symm)
    ((shiftRight_of_lt (hyd.trans_lt hd)).trans (shiftRight_of_lt hd).symm)

/-- Both bounds are attained, and no result is beyond them. -/
theorem xor_bounds_exact (hab : a ≤ b) (hcd : c ≤ d) (hb : b < 2 ^ w) (hd : d < 2 ^ w) :
    IsLeast (results (· ^^^ ·) a b c d) (minXor a b c d w) ∧
      IsGreatest (results (· ^^^ ·) a b c d) (maxXor a b c d w) :=
  ⟨minXor_isLeast hab hcd hb hd, maxXor_isGreatest hab hcd hb hd⟩

theorem xor_bounds_of_bytes : 3 ≤ 12 ∧ 5 ≤ 9 ∧ 12 < 2 ^ 8 ∧ 9 < 2 ^ 8 ∧
    IsLeast (results (· ^^^ ·) 3 12 5 9) (minXor 3 12 5 9 8) ∧
      IsGreatest (results (· ^^^ ·) 3 12 5 9) (maxXor 3 12 5 9 8) :=
  ⟨by decide, by decide, by decide, by decide, xor_bounds_exact (by decide) (by decide) (by decide) (by decide)⟩

end Claripy.Vsa.WarrenMethods
