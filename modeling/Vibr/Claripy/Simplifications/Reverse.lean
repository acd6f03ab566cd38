import Vibr.Claripy.Algorithm.ReplaceDict
import Vibr.Claripy.Builder

/-!
# Byte reversal

`bv_reverse_simplifier` of `claripy/simplifications.py`. It undoes reversals, reads single
bytes that are concatenated from the lowest up as one piece of their source, and moves a
reversal out of a piece that starts and ends at bytes.
-/

namespace Claripy

open Ast

/-- `Extract((i + 1) * 8 - 1, i * 8, x)` -/
def Ast.isByteOf (x : Ast) (i : Nat) : Ast → Bool
  | node (.Extract high low) [y] _ => y = x ∧ high = (i + 1) * 8 - 1 ∧ low = i * 8
  | _ => false

/-- The loop over a concatenation that compares its elements with the bytes of `x` from
byte `i` up. -/
def Ast.areBytesOf (x : Ast) : Nat → List Ast → Bool
  | _, [] => true
  | i, a :: as => x.isByteOf i a && areBytesOf x (i + 1) as

/-- The source of a list of extractions of its bytes, the lowest first, and the upper bound
of the last of them. -/
def Ast.bytesSource (args : List Ast) : Option (Ast × Nat) :=
  match args with
  | node (.Extract _ _) [first] _ :: _ =>
    if first.areBytesOf 0 args then
      match args.getLast? with
      | some (node (.Extract high _) _ _) => some (first, high)
      | _ => none
    else none
  | _ => none

namespace Builder

variable (B : Builder)

/-- The rules for a concatenation. -/
def reverseConcat (args : List Ast) : Option Ast :=
  match bytesSource args with
  | some (first, high) => some (if first.length = high + 1 then first else B.build (.Extract high 0) [first])
  | none =>
    if args.all (·.length = 8) then some (B.build .Concat args.reverse)
    else if args.all fun a => a.op = .Reverse ∧ a.length % 8 = 0 then
      some (B.build .Concat (args.reverse.flatMap Ast.args))
    else none

def bvReverseSimplifier : Ast → Option Ast
  | node .Reverse [x] _ => some x
  | node op args ann =>
    if (node op args ann).length = 8 then some (node op args ann)
    else
      match op, args with
      | .Concat, args => B.reverseConcat args
      | .Extract high low, [node .Reverse [x] _] =>
        if (high + 1) % 8 = 0 ∧ low % 8 = 0 then
          some (B.build (.Extract (x.length - low - 1) (x.length - high - 1)) [x])
        else none
      | _, _ => none

end Builder

variable {x : Ast} {args : List Ast} {ann : List Annotation}

namespace Ast

/-- Every reversal in the expression is of whole bytes; the back-ends refuse others. -/
def ReversesBytes (a : Ast) : Prop := ∀ s ∈ a.subterms, s.op = .Reverse → 8 ∣ s.length

instance (a : Ast) : Decidable a.ReversesBytes :=
  inferInstanceAs (Decidable (∀ s ∈ a.subterms, s.op = .Reverse → 8 ∣ s.length))

/-! ## Pieces of bitvectors as bytes -/

variable {ρ : Assignment} {n m : Nat}

theorem ofBytes_of_ty {a : Ast} (h : a.ty = some (.bv (8 * n))) : a.OfBytes n :=
  ⟨length_of_ty a _ h, exists_bv_of_ty h⟩

theorem OfBytes.congr {a b : Ast} (h : a.OfBytes n) (hlen : b.length = a.length)
    (heval : ∀ ρ, b.eval ρ = a.eval ρ) : b.OfBytes n ∧ b.bytes ρ = a.bytes ρ := by
  refine ⟨⟨hlen.trans h.length, fun ρ => by rw [heval]; exact h.eval ρ⟩, ?_⟩
  rw [bytes, bytes, hlen, heval]

/-- The bytes of a piece that starts at byte `i` from the end of a bitvector of any length. -/
theorem ofBytes_extract (hx : x.ty = some (.bv m)) {i l : Nat} (hl : 0 < l) (ann : List Annotation) :
    (node (.Extract (8 * (i + l) - 1) (8 * i)) [x] ann).OfBytes l ∧
      (node (.Extract (8 * (i + l) - 1) (8 * i)) [x] ann).bytes ρ =
        Bytes.bytesBE l ((x.eval ρ).toNat / 256 ^ i) := by
  have hwidth : 8 * (i + l) - 1 + 1 - 8 * i = 8 * l := by omega
  have heval : ∀ ρ (v : BitVec m), x.eval ρ = .bv m v →
      (node (.Extract (8 * (i + l) - 1) (8 * i)) [x] ann).eval ρ =
        .bv (8 * l) (v.extractLsb' (8 * i) (8 * l)) := by
    intro ρ v hv
    simp only [Ast.eval, evalList, hv, Assignment.leaf, Option.getD_none, Op.apply]
    rw [hwidth]
  have hof : (node (.Extract (8 * (i + l) - 1) (8 * i)) [x] ann).OfBytes l := by
    refine ⟨hwidth, fun ρ => ?_⟩
    obtain ⟨v, hv⟩ := exists_bv_of_ty hx ρ
    exact ⟨_, heval ρ v hv⟩
  refine ⟨hof, ?_⟩
  obtain ⟨v, hv⟩ := exists_bv_of_ty hx ρ
  rw [hof.bytes_eq, heval ρ v hv, hv]
  simp only [Value.toNat, BitVec.extractLsb'_toNat]
  rw [Nat.shiftRight_eq_div_pow, pow_256, ← pow_256, ← pow_256, Bytes.bytesBE_mod]

theorem bytesBE_succ_low (n v : Nat) : Bytes.bytesBE (n + 1) v = Bytes.bytesBE n (v / 256) ++ [v % 256] := by
  rw [Bytes.bytesBE_add n 1 v]
  simp [Bytes.bytesBE]

/-- The elements that the loop accepts are the bytes of the source, backwards. -/
theorem areBytesOf_spec (hx : x.ty = some (.bv m)) {i : Nat} {as : List Ast} (h : x.areBytesOf i as = true) :
    List.Forall₂ OfBytes as (List.replicate as.length 1) ∧
      ∀ ρ, as.flatMap (bytes ρ) = (Bytes.bytesBE as.length ((x.eval ρ).toNat / 256 ^ i)).reverse := by
  induction as generalizing i with
  | nil => exact ⟨.nil, fun _ => rfl⟩
  | cons a as ih =>
    simp only [areBytesOf, Bool.and_eq_true] at h
    obtain ⟨ha, has⟩ := h
    obtain ⟨hof, hbytes⟩ := ih has
    unfold isByteOf at ha
    split at ha
    · rename_i high low y ann
      obtain ⟨rfl, rfl, rfl⟩ := of_decide_eq_true ha
      have hbyte := fun ρ => ofBytes_extract (ρ := ρ) hx (i := i) Nat.one_pos ann
      rw [Nat.mul_comm 8, Nat.mul_comm 8] at hbyte
      refine ⟨.cons (hbyte ⟨fun _ => 0, fun _ => false⟩).1 hof, fun ρ => ?_⟩
      rw [List.flatMap_cons, (hbyte ρ).2, hbytes, List.length_cons, bytesBE_succ_low as.length,
        List.reverse_append, Nat.div_div_eq_div_mul, ← pow_succ]
      simp [Bytes.bytesBE]
    · cases ha

theorem isByteOf_getLast {x a : Ast} {i : Nat} {as : List Ast} (h : x.areBytesOf i as = true)
    (ha : as.getLast? = some a) : x.isByteOf (i + as.length - 1) a = true := by
  induction as generalizing i with
  | nil => cases ha
  | cons b bs ih =>
    simp only [areBytesOf, Bool.and_eq_true] at h
    rcases bs with _ | ⟨c, cs⟩
    · cases ha
      exact h.1
    · rw [List.getLast?_cons_cons] at ha
      rw [List.length_cons, ← Nat.add_assoc, Nat.add_right_comm]
      exact ih h.2 ha

theorem bytesSource_spec {first : Ast} {high : Nat} (h : bytesSource args = some (first, high)) :
    first.areBytesOf 0 args = true ∧ high = args.length * 8 - 1 ∧
      ∃ hi lo ann as, args = node (.Extract hi lo) [first] ann :: as := by
  unfold bytesSource at h
  split at h
  · rename_i hi lo x ann as
    split at h
    · rename_i hbytes
      split at h
      · rename_i hi' lo' xs ann' hlast
        cases h
        refine ⟨hbytes, ?_, hi, lo, ann, as, rfl⟩
        have hbyte := isByteOf_getLast hbytes hlast
        unfold isByteOf at hbyte
        split at hbyte
        · rename_i heq
          cases heq
          have hhigh := (of_decide_eq_true hbyte).2.1
          simpa using hhigh
        · cases hbyte
      · cases h
    · cases h
  · cases h

theorem ty_extract {high low : Nat} {t : Ty} (h : (node (.Extract high low) [x] ann).ty = some t) :
    ∃ w, x.ty = some (.bv w) ∧ low ≤ high ∧ high < w ∧ t = .bv (high + 1 - low) := by
  rw [ty_one, Option.bind_eq_some_iff] at h
  obtain ⟨u, hu, hop⟩ := h
  cases u with
  | bool => simp [Op.ty] at hop
  | bv w =>
    simp only [Op.ty, Option.ite_none_right_eq_some] at hop
    exact ⟨w, hu, hop.1.1, hop.1.2, (Option.some.inj hop.2).symm⟩

theorem reverse_flatMap_bytes {as : List Ast} {f : Ast → Ast} (h : ∀ a ∈ as, (f a).bytes ρ = (a.bytes ρ).reverse) :
    (as.reverse.map f).flatMap (bytes ρ) = (as.flatMap (bytes ρ)).reverse := by
  induction as with
  | nil => rfl
  | cons a as ih =>
    rw [List.reverse_cons, List.map_append, List.flatMap_append, ih fun b hb => h b (List.mem_cons_of_mem _ hb),
      List.flatMap_cons, List.reverse_append, ← h a List.mem_cons_self]
    simp

/-- An expression whose bytes are those of `body` backwards has the value of the reversal. -/
theorem eval_eq_reversed {body e : Ast} (hbody : body.OfBytes n) (he : e.OfBytes n)
    (h : e.bytes ρ = (body.bytes ρ).reverse) : e.eval ρ = body.reversed.eval ρ :=
  he.eval_eq (hbody.reversed (ρ := ρ)).1 (h.trans hbody.reversed.2.symm)

theorem ty_concat {t : Ty} (h : (node .Concat args ann).ty = some t) :
    args ≠ [] ∧ ∀ a ∈ args, ∃ w, a.ty = some (.bv w) := by
  rw [ty, Option.bind_eq_some_iff] at h
  obtain ⟨ts, hts, hop⟩ := h
  rcases ts with _ | ⟨u, us⟩
  · simp [Op.ty, Ty.concat] at hop
  simp only [Op.ty, Ty.concat, Option.ite_none_right_eq_some] at hop
  refine ⟨fun hnil => by simp [hnil, tyList] at hts, fun a ha => ?_⟩
  obtain ⟨t, ht, hat⟩ := exists_ty_of_mem hts a ha
  have hbv := List.all_eq_true.mp hop.1 t ht
  cases t with
  | bool => simp [Ty.isBV] at hbv
  | bv w => exact ⟨w, hat⟩

/-- Taking a reversal away reverses the bytes. -/
theorem reversed_bytes {k : Nat} (hx : x.OfBytes k) (ann : List Annotation) :
    ∃ k, (node .Reverse [x] ann).OfBytes k ∧ x.OfBytes k ∧
      ∀ ρ, x.bytes ρ = ((node .Reverse [x] ann).bytes ρ).reverse := by
  have hrev := fun ρ => (hx.reversed (ρ := ρ)).1.congr (b := node .Reverse [x] ann) (ρ := ρ) rfl fun _ => rfl
  refine ⟨k, (hrev ⟨fun _ => 0, fun _ => false⟩).1, hx, fun ρ => ?_⟩
  rw [(hrev ρ).2, hx.reversed.2, List.reverse_reverse]

theorem ty_reverse {t : Ty} (h : (node .Reverse args ann).ty = some t) : ∃ x, args = [x] ∧ x.ty = some t := by
  rcases args with _ | ⟨x, _ | ⟨y, ys⟩⟩
  · simp [ty, tyList, Op.ty] at h
  · rw [ty_one, Option.bind_eq_some_iff] at h
    obtain ⟨u, hu, hop⟩ := h
    cases u with
    | bool => simp [Op.ty] at hop
    | bv w =>
      cases hop
      exact ⟨x, rfl, hu⟩
  · simp only [ty, tyList, Option.bind_eq_some_iff, Option.map_eq_some_iff] at h
    obtain ⟨_, ⟨_, _, _, ⟨_, _, _, _, rfl⟩, rfl⟩, hop⟩ := h
    simp [Op.ty] at hop

end Ast

namespace Builder

variable {B : Builder} {ρ : Assignment} {n : Nat}

/-- Reversing every element and their order reverses a concatenation. -/
theorem eval_reverse_concat (f : Ast → Ast) (hne : args ≠ []) (hbody : (node .Concat args ann).OfBytes n)
    (hf : ∀ a ∈ args, ∃ k, a.OfBytes k ∧ (f a).OfBytes k ∧ ∀ ρ, (f a).bytes ρ = (a.bytes ρ).reverse) :
    (concat (args.reverse.map f)).eval ρ = (node .Concat args ann).reversed.eval ρ := by
  have hsize : ∀ a ∈ args, a.OfBytes (a.length / 8) ∧ (f a).OfBytes (a.length / 8) := by
    intro a ha
    obtain ⟨k, hk, hfk, -⟩ := hf a ha
    rw [hk.length, Nat.mul_div_cancel_left k (by decide)]
    exact ⟨hk, hfk⟩
  have hargs : List.Forall₂ OfBytes args (args.map (·.length / 8)) :=
    List.forall₂_map_right_iff.mpr (List.forall₂_same.mpr fun a ha => (hsize a ha).1)
  have hfargs : List.Forall₂ OfBytes (args.reverse.map f) (args.reverse.map (·.length / 8)) := by
    rw [List.forall₂_map_left_iff, List.forall₂_map_right_iff, List.forall₂_same]
    exact fun a ha => (hsize a (List.mem_reverse.mp ha)).2
  obtain ⟨hof, hbytes⟩ := ofBytes_concat (ρ := ρ) hne hargs
  obtain ⟨hfof, hfbytes⟩ := ofBytes_concat (ρ := ρ) (by simpa using hne) hfargs
  obtain ⟨hbody', hbytes'⟩ := hof.congr (b := node .Concat args ann) (ρ := ρ) rfl fun _ => rfl
  have hn : (args.map (·.length / 8)).sum = n := by
    have h8 := hbody'.length.symm.trans hbody.length
    omega
  have hrev : (args.reverse.map (·.length / 8)).sum = n := by
    rw [List.map_reverse, List.sum_reverse, hn]
  rw [hrev] at hfof
  refine eval_eq_reversed hbody hfof ?_
  rw [hfbytes, hbytes', hbytes, reverse_flatMap_bytes fun a ha => ?_]
  obtain ⟨k, -, -, hfa⟩ := hf a ha
  exact hfa ρ

theorem reverseConcat_sound {e : Ast} (hbody : (node .Concat args ann).ty = some (.bv (8 * n)))
    (h : B.reverseConcat args = some e) : e.eval ρ = (node .Concat args ann).reversed.eval ρ := by
  obtain ⟨hne, htys⟩ := ty_concat hbody
  have hof := ofBytes_of_ty hbody
  unfold reverseConcat at h
  split at h
  · rename_i first high hsource
    cases h
    obtain ⟨hbytes, rfl, hi, lo, ann', as, hargs⟩ := bytesSource_spec hsource
    obtain ⟨u, hu⟩ := htys (node (.Extract hi lo) [first] ann') (by simp [hargs])
    obtain ⟨m, hfirst, -⟩ := ty_extract hu
    obtain ⟨hones, hflat⟩ := areBytesOf_spec hfirst hbytes
    obtain ⟨hconcat, hcbytes⟩ := ofBytes_concat (ρ := ρ) hne hones
    obtain ⟨hconcat', hcbytes'⟩ := hconcat.congr (b := node .Concat args ann) (ρ := ρ) rfl fun _ => rfl
    have hn : args.length = n := by
      have h8 := hconcat'.length.symm.trans hof.length
      rw [List.sum_replicate, smul_eq_mul, Nat.mul_one] at h8
      omega
    have hpos : 0 < args.length := List.length_pos_of_ne_nil hne
    have hrev : ((node .Concat args ann).bytes ρ).reverse = Bytes.bytesBE n (first.eval ρ).toNat := by
      rw [hcbytes', hcbytes, hflat, List.reverse_reverse, hn, pow_zero, Nat.div_one]
    split
    · rename_i hlen
      rw [length_of_ty first _ hfirst, Ty.length] at hlen
      have hfull : first.OfBytes n := by
        rw [show m = 8 * n by omega] at hfirst
        exact ofBytes_of_ty hfirst
      exact eval_eq_reversed hof hfull (by rw [hrev, hfull.bytes_eq])
    obtain ⟨hpiece, hpbytes⟩ := ofBytes_extract (ρ := ρ) hfirst (i := 0) (hn ▸ hpos) []
    rw [Nat.zero_add, Nat.mul_zero] at hpiece hpbytes
    rw [B.eval_build, hn, Nat.mul_comm n 8]
    exact eval_eq_reversed hof hpiece (by rw [hrev, hpbytes, pow_zero, Nat.div_one])
  · split at h
    · rename_i hall
      cases h
      rw [B.eval_build]
      have hbyte : ∀ a ∈ args, ∃ k, a.OfBytes k ∧ (id a).OfBytes k ∧ ∀ ρ, (id a).bytes ρ = (a.bytes ρ).reverse := by
        intro a ha
        obtain ⟨w, hw⟩ := htys a ha
        have h8 : a.length = 8 := of_decide_eq_true (List.all_eq_true.mp hall a ha)
        rw [length_of_ty a _ hw] at h8
        cases h8
        have ha1 : a.OfBytes 1 := ofBytes_of_ty hw
        refine ⟨1, ha1, ha1, fun ρ => ?_⟩
        obtain ⟨b, hb⟩ := List.length_eq_one_iff.mp (ha1.length_bytes (ρ := ρ))
        rw [id, hb, List.reverse_singleton]
      have heval := eval_reverse_concat (ρ := ρ) id hne hof hbyte
      rwa [List.map_id] at heval
    · split at h
      · rename_i hall
        cases h
        rw [B.eval_build]
        have hrev : ∀ a ∈ args, ∃ x ann k, a = node .Reverse [x] ann ∧ x.OfBytes k := by
          intro a ha
          obtain ⟨w, hw⟩ := htys a ha
          obtain ⟨hop, hdvd⟩ := of_decide_eq_true (List.all_eq_true.mp hall a ha)
          obtain ⟨op, as, ann⟩ := a
          cases hop
          obtain ⟨x, rfl, hx⟩ := ty_reverse hw
          rw [length_of_ty _ _ hw] at hdvd
          obtain ⟨k, rfl⟩ := Nat.dvd_of_mod_eq_zero hdvd
          exact ⟨x, ann, k, rfl, ofBytes_of_ty hx⟩
        have hargs : args.reverse.flatMap Ast.args = args.reverse.map fun a => a.args.headD a := by
          rw [List.map_eq_flatMap]
          refine List.flatMap_congr fun a ha => ?_
          obtain ⟨x, ann, k, rfl, -⟩ := hrev a (List.mem_reverse.mp ha)
          rfl
        rw [hargs]
        refine eval_reverse_concat _ hne hof fun a ha => ?_
        obtain ⟨x, ann, k, rfl, hk⟩ := hrev a ha
        exact reversed_bytes hk ann
      · cases h

/-- A piece of whole bytes of a reversed expression is, reversed, a piece of the expression. -/
theorem eval_extract_reverse {high low : Nat} {ann ann' : List Annotation}
    (hbody : (node (.Extract high low) [node .Reverse [x] ann] ann').ty = some (.bv (8 * n)))
    (hdvd : 8 ∣ (node .Reverse [x] ann).length) (hhigh : (high + 1) % 8 = 0) (hlow : low % 8 = 0) :
    (node (.Extract (x.length - low - 1) (x.length - high - 1)) [x] []).eval ρ =
      (node (.Extract high low) [node .Reverse [x] ann] ann').reversed.eval ρ := by
  obtain ⟨w, hrev, hle, hlt, hw⟩ := ty_extract hbody
  obtain ⟨_, ⟨⟩, hx⟩ := ty_reverse hrev
  rw [length_of_ty _ _ hrev, Ty.length] at hdvd
  obtain ⟨m, rfl⟩ := hdvd
  obtain ⟨h, hh⟩ := Nat.dvd_of_mod_eq_zero hhigh
  obtain ⟨l, rfl⟩ := Nat.dvd_of_mod_eq_zero hlow
  have hof := ofBytes_of_ty hx
  have hn : n = h - l := by
    have hwidth := Ty.bv.inj hw
    omega
  -- both are slices of the bytes, one read backwards
  obtain ⟨hpiece, hpbytes⟩ := hof.extract (ρ := ρ) (o := l) (l := h - l) (by omega) (by omega)
  obtain ⟨hbody', hbbytes⟩ := (ofBytes_of_ty hrev).extract (ρ := ρ) (o := m - h) (l := h - l) (by omega) (by omega)
  rw [show 8 * (m - l) - 1 = x.length - 8 * l - 1 by rw [hof.length]; omega,
    show 8 * (m - l - (h - l)) = x.length - high - 1 by rw [hof.length]; omega] at hpiece hpbytes
  rw [show 8 * (m - (m - h)) - 1 = high by omega, show 8 * (m - (m - h) - (h - l)) = 8 * l by omega] at hbody' hbbytes
  subst hn
  refine eval_eq_reversed (ofBytes_of_ty hbody) hpiece ?_
  obtain ⟨_, _, _, hxbytes⟩ := reversed_bytes hof ann
  have hlength : ((node .Reverse [x] ann).bytes ρ).length = m := (ofBytes_of_ty hrev).length_bytes
  change (x.extract _ _).bytes ρ = ((Ast.extract _ _ _).bytes ρ).reverse
  rw [hpbytes, hbbytes, hxbytes, List.drop_reverse, List.take_reverse, hlength, List.length_take, hlength,
    List.drop_take, show min (m - l) m - (h - l) = m - h by omega, show m - l - (m - h) = h - l by omega]

end Builder
end Claripy
