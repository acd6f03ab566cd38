import Mathlib.Data.List.Chain
import Mathlib.Data.List.Nodup

/-!
# Rings

A ring is a list of nodes in which every node is linked to the one after it, and the last
one to the first, by a forward and a backward pointer. A ring can be turned, so that a
change to it is made at its front.
-/

namespace Ring

variable {α : Type*}

def Linked (fwd bck : α → α) (x y : α) : Prop := fwd x = y ∧ bck y = x

def IsRing (fwd bck : α → α) (L : List α) : Prop :=
  L.IsChain (Linked fwd bck) ∧ ∀ x ∈ L.getLast?, ∀ y ∈ L.head?, Linked fwd bck x y

variable {fwd bck fwd' bck' : α → α} {A B L : List α} {x h t : α}

theorem isRing_rotate (H : IsRing fwd bck (A ++ B)) : IsRing fwd bck (B ++ A) := by
  obtain ⟨hchain, hends⟩ := H
  rw [List.isChain_append] at hchain
  obtain ⟨hA, hB, hAB⟩ := hchain
  cases A with
  | nil =>
    rw [List.append_nil]
    exact ⟨hB, by simpa using hends⟩
  | cons a A =>
    cases B with
    | nil =>
      rw [List.nil_append]
      exact ⟨hA, by simpa using hends⟩
    | cons b B =>
      refine ⟨List.isChain_append.mpr ⟨hB, hA, ?_⟩, ?_⟩
      · intro y hy z hz
        refine hends y ?_ z hz
        rwa [List.getLast?_append_of_ne_nil _ (List.cons_ne_nil b B)]
      · intro y hy z hz
        rw [List.getLast?_append_of_ne_nil _ (List.cons_ne_nil a A)] at hy
        exact hAB y hy z hz

theorem isRing_congr (hf : ∀ y ∈ L, fwd' y = fwd y) (hb : ∀ y ∈ L, bck' y = bck y)
    (H : IsRing fwd bck L) : IsRing fwd' bck' L := by
  have himp : ∀ y z, y ∈ L → z ∈ L → Linked fwd bck y z → Linked fwd' bck' y z := by
    intro y z hy hz hyz
    exact ⟨(hf y hy).trans hyz.1, (hb z hz).trans hyz.2⟩
  refine ⟨H.1.imp_of_mem_imp himp, fun y hy z hz => ?_⟩
  exact himp y z (List.mem_of_getLast? hy) (List.mem_of_mem_head? hz) (H.2 y hy z hz)

/-- A node that is alone is linked to itself. -/
theorem isRing_singleton : IsRing fwd bck [x] ↔ Linked fwd bck x x := by
  simp [IsRing]

/-- A node in front of others: they are a chain, and the node links its ends. -/
theorem isRing_cons (hh : L.head? = some h) (ht : L.getLast? = some t) :
    IsRing fwd bck (x :: L)
      ↔ Linked fwd bck x h ∧ L.IsChain (Linked fwd bck) ∧ Linked fwd bck t x := by
  have hne : L ≠ [] := by
    rintro rfl
    cases hh
  rw [IsRing, List.isChain_cons, List.getLast?_cons_of_ne_nil hne, hh, ht]
  simp [and_assoc]

/-- The neighbours of a node are the ends of the others, or itself. -/
theorem isRing_ends (H : IsRing fwd bck (x :: L)) :
    fwd x = L.head?.getD x ∧ bck x = L.getLast?.getD x := by
  cases L with
  | nil => exact isRing_singleton.mp H
  | cons a L =>
    have hlast : (a :: L).getLast? = some ((a :: L).getLast (by simp)) :=
      List.getLast?_eq_some_getLast (by simp)
    rw [isRing_cons rfl hlast] at H
    rw [hlast]
    exact ⟨H.1.1, H.2.2.2⟩

/-- A chain is kept where its pointers are: those that leave its last node, and come back from
its first, are not among them. -/
theorem isChain_congr (hL : L.Nodup) (hf : ∀ y ∈ L, L.getLast? ≠ some y → fwd' y = fwd y)
    (hb : ∀ y ∈ L, L.head? ≠ some y → bck' y = bck y) (H : L.IsChain (Linked fwd bck)) :
    L.IsChain (Linked fwd' bck') := by
  induction L with
  | nil => exact .nil
  | cons a L ih =>
    obtain ⟨haL, hL⟩ := List.nodup_cons.mp hL
    rw [List.isChain_cons] at H ⊢
    have hne : ∀ y ∈ L, y ≠ a := fun y hy hya => haL (hya ▸ hy)
    refine ⟨fun y hy => ?_, ih hL (fun y hy hlast => ?_) (fun y hy _ => ?_) H.2⟩
    · have hyL := List.mem_of_mem_head? hy
      obtain ⟨h₁, h₂⟩ := H.1 y hy
      constructor
      · rw [hf a List.mem_cons_self, h₁]
        rw [List.getLast?_cons_of_ne_nil (List.ne_nil_of_mem hyL)]
        exact fun heq => haL (List.mem_of_getLast? heq)
      · rw [hb y (List.mem_cons_of_mem _ hyL), h₂]
        simpa using Ne.symm (hne y hyL)
    · refine hf y (List.mem_cons_of_mem _ hy) ?_
      rwa [List.getLast?_cons_of_ne_nil (List.ne_nil_of_mem hy)]
    · refine hb y (List.mem_cons_of_mem _ hy) ?_
      simpa using Ne.symm (hne y hy)

/-- Put a node between the ends of a chain; if there is no chain, link the node to itself. -/
theorem isRing_put (hL : L.Nodup) (H : L.IsChain (Linked fwd bck))
    (hx : Linked fwd' bck' x (L.head?.getD x)) (hx' : Linked fwd' bck' (L.getLast?.getD x) x)
    (hf : ∀ y ∈ L, L.getLast? ≠ some y → fwd' y = fwd y)
    (hb : ∀ y ∈ L, L.head? ≠ some y → bck' y = bck y) : IsRing fwd' bck' (x :: L) := by
  cases L with
  | nil => exact isRing_singleton.mpr hx
  | cons a L =>
    have hlast : (a :: L).getLast? = some ((a :: L).getLast (by simp)) :=
      List.getLast?_eq_some_getLast (by simp)
    rw [isRing_cons rfl hlast]
    rw [hlast] at hx'
    exact ⟨hx, isChain_congr hL hf hb H, hx'⟩

/-- The writes that put a node between the ends of a chain. -/
theorem isRing_insert [DecidableEq α] {fw bk : α} (hL : L.Nodup) (H : L.IsChain (Linked fwd bck))
    (hx : x ∉ L) (hfw : fw = L.head?.getD x) (hbk : bk = L.getLast?.getD x) :
    IsRing (Function.update (Function.update fwd x fw) bk x)
      (Function.update (Function.update bck x bk) fw x) (x :: L) := by
  have hne : ∀ z ∈ L, z ≠ x := fun z hz heq => hx (heq ▸ hz)
  cases hcons : L with
  | nil =>
    rw [hcons] at hfw hbk
    rw [isRing_singleton, hfw, hbk]
    simp [Linked]
  | cons a L' =>
    have hhead : L.head? = some a := by rw [hcons]; rfl
    obtain ⟨t, hlast⟩ : ∃ t, L.getLast? = some t :=
      ⟨_, List.getLast?_eq_some_getLast (by rw [hcons]; simp)⟩
    rw [hhead, Option.getD_some] at hfw
    rw [hlast, Option.getD_some] at hbk
    have hfwx : fw ≠ x := by rw [hfw]; exact hne a (List.mem_of_mem_head? hhead)
    have hbkx : bk ≠ x := by rw [hbk]; exact hne t (List.mem_of_getLast? hlast)
    rw [← hcons]
    refine isRing_put hL H ?_ ?_ ?_ ?_
    · rw [hhead, Option.getD_some, ← hfw]
      simp [Linked, Ne.symm hbkx]
    · rw [hlast, Option.getD_some, ← hbk]
      simp [Linked, Ne.symm hfwx]
    · intro z hz hzt
      have hzbk : z ≠ bk := by
        rintro rfl
        exact hzt (by rw [hlast, hbk])
      rw [Function.update_of_ne hzbk, Function.update_of_ne (hne z hz)]
    intro z hz hzh
    have hzfw : z ≠ fw := by
      rintro rfl
      exact hzh (by rw [hhead, hfw])
    rw [Function.update_of_ne hzfw, Function.update_of_ne (hne z hz)]

/-- Link the ends of a chain to each other. -/
theorem isRing_close (hL : L.Nodup) (hh : L.head? = some h) (ht : L.getLast? = some t)
    (H : L.IsChain (Linked fwd bck)) (hth : Linked fwd' bck' t h)
    (hf : ∀ y ∈ L, y ≠ t → fwd' y = fwd y) (hb : ∀ y ∈ L, y ≠ h → bck' y = bck y) :
    IsRing fwd' bck' L := by
  refine ⟨isChain_congr hL (fun y hy hlast => hf y hy ?_) (fun y hy hhead => hb y hy ?_) H, ?_⟩
  · rintro rfl
    exact hlast ht
  · rintro rfl
    exact hhead hh
  intro y hy z hz
  rw [ht] at hy
  rw [hh] at hz
  cases hy
  cases hz
  exact hth

end Ring
