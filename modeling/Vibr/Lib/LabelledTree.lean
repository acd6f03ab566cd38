import Mathlib.Data.List.Forall2

/-!
# Labelled trees

Nodes with children that are smaller, in any type. Two trees agree on a label if corresponding nodes have the
same one; a comparison that looks at the labels and goes on with the children is agreement, and
an equivalence where it accepts a node at all.
-/

namespace LabelledTree

variable {N K L H : Type*} {children : N → List N}

/-- The same label at corresponding nodes. -/
inductive Agree (children : N → List N) (label : N → K) : N → N → Prop where
  | node {a b : N} (hlabel : label a = label b) (hchildren : List.Forall₂ (Agree children label) (children a) (children b)) :
      Agree children label a b

/-- A property of every node of a tree. -/
inductive Everywhere (children : N → List N) (p : N → Prop) : N → Prop where
  | node {a : N} (hroot : p a) (hchildren : ∀ c ∈ children a, Everywhere children p c) : Everywhere children p a

theorem agree_iff {label : N → K} {a b : N} : Agree children label a b ↔
    label a = label b ∧ List.Forall₂ (Agree children label) (children a) (children b) :=
  ⟨fun ⟨hlabel, hchildren⟩ => ⟨hlabel, hchildren⟩, fun ⟨hlabel, hchildren⟩ => ⟨hlabel, hchildren⟩⟩

theorem everywhere_iff {p : N → Prop} {a : N} : Everywhere children p a ↔ p a ∧ ∀ c ∈ children a, Everywhere children p c :=
  ⟨fun ⟨hroot, hchildren⟩ => ⟨hroot, hchildren⟩, fun ⟨hroot, hchildren⟩ => ⟨hroot, hchildren⟩⟩

/-! ## Lists of children -/

section Lists

variable {r s : N → N → Prop}

theorem forall₂_imp : ∀ {l l' : List N}, List.Forall₂ r l l' → (∀ a ∈ l, ∀ b ∈ l', r a b → s a b) → List.Forall₂ s l l'
  | _, _, .nil, _ => .nil
  | _, _, .cons hr hrest, h =>
    .cons (h _ List.mem_cons_self _ List.mem_cons_self hr)
      (forall₂_imp hrest fun a ha b hb => h a (List.mem_cons_of_mem _ ha) b (List.mem_cons_of_mem _ hb))

theorem forall₂_self : ∀ {l : List N}, (∀ a ∈ l, r a a) → List.Forall₂ r l l
  | [], _ => .nil
  | _ :: _, h => .cons (h _ List.mem_cons_self) (forall₂_self fun a ha => h a (List.mem_cons_of_mem _ ha))

theorem forall₂_trans {t : N → N → Prop} : ∀ {l l' l'' : List N}, List.Forall₂ r l l' → List.Forall₂ s l' l'' →
    (∀ a ∈ l, ∀ b c, r a b → s b c → t a c) → List.Forall₂ t l l''
  | _, _, _, .nil, .nil, _ => .nil
  | _, _, _, .cons hr hrest, .cons hs hrest', h =>
    .cons (h _ List.mem_cons_self _ _ hr hs)
      (forall₂_trans hrest hrest' fun a ha => h a (List.mem_cons_of_mem _ ha))

theorem forall₂_and : ∀ {l l' : List N}, List.Forall₂ r l l' → List.Forall₂ s l l' →
    List.Forall₂ (fun a b => r a b ∧ s a b) l l'
  | _, _, .nil, .nil => .nil
  | _, _, .cons hr hrest, .cons hs hrest' => .cons ⟨hr, hs⟩ (forall₂_and hrest hrest')

theorem forall₂_left : ∀ {l l' : List N}, List.Forall₂ r l l' → ∀ a ∈ l, ∃ b ∈ l', r a b
  | _, _, .cons hr hrest, a, ha => by
    obtain rfl | ha := List.mem_cons.mp ha
    · exact ⟨_, List.mem_cons_self, hr⟩
    · obtain ⟨b, hb, hab⟩ := forall₂_left hrest a ha
      exact ⟨b, List.mem_cons_of_mem _ hb, hab⟩

theorem forall₂_right : ∀ {l l' : List N}, List.Forall₂ r l l' → ∀ b ∈ l', ∃ a ∈ l, r a b
  | _, _, .cons hr hrest, b, hb => by
    obtain rfl | hb := List.mem_cons.mp hb
    · exact ⟨_, List.mem_cons_self, hr⟩
    · obtain ⟨a, ha, hab⟩ := forall₂_right hrest b hb
      exact ⟨a, List.mem_cons_of_mem _ ha, hab⟩

theorem forall₂_map_eq {h : N → H} : ∀ {l l' : List N}, List.Forall₂ (fun a b => h a = h b) l l' ↔ l.map h = l'.map h
  | [], [] => iff_of_true .nil rfl
  | [], _ :: _ => iff_of_false nofun nofun
  | _ :: _, [] => iff_of_false nofun nofun
  | _ :: _, _ :: _ => by
    rw [List.forall₂_cons, List.map_cons, List.map_cons, List.cons_eq_cons, forall₂_map_eq]

theorem forall₂_append : ∀ {l l' : List N} {k k' : List N},
    List.Forall₂ r l l' ∧ List.Forall₂ r k k' ↔ l.length = l'.length ∧ List.Forall₂ r (l ++ k) (l' ++ k')
  | [], [], _, _ => by simp
  | [], _ :: _, _, _ => by simp
  | _ :: _, [], _, _ => by simp
  | _ :: l, _ :: l', k, k' => by
    have ih := @forall₂_append l l' k k'
    simp only [List.forall₂_cons, List.length_cons, List.cons_append, Nat.add_right_cancel_iff]
    rw [and_assoc, ih]
    exact and_left_comm

theorem forall₂_append_comm {l l' k k' : List N} (hlength : l.length = l'.length)
    (h : List.Forall₂ r (l ++ k) (l' ++ k')) : List.Forall₂ r (k ++ l) (k' ++ l') := by
  obtain ⟨hl, hk⟩ := forall₂_append.mpr ⟨hlength, h⟩
  exact (forall₂_append.mp ⟨hk, hl⟩).2

end Lists

/-! ## Agreement -/

section Agreement

variable {size : N → Nat} {label : N → K} {layout : N → L} {p : N → Prop} {r s : N → N → Prop} {h : N → H} {a b c : N}

/-- From the children to their parent. -/
theorem nodeInduction (hsize : ∀ a, ∀ c ∈ children a, size c < size a) {motive : N → Prop}
    (step : ∀ a, (∀ c ∈ children a, motive c) → motive a) (a : N) : motive a :=
  step a fun c hc =>
    have := hsize a c hc
    nodeInduction hsize step c
termination_by size a

variable (hsize : ∀ a, ∀ c ∈ children a, size c < size a)

include hsize

theorem Agree.refl (a : N) : Agree children label a a := by
  induction a using nodeInduction hsize with
  | step a ih => exact ⟨rfl, forall₂_self ih⟩

theorem Agree.symm (hab : Agree children label a b) : Agree children label b a := by
  induction a using nodeInduction hsize generalizing b with
  | step a ih =>
    obtain ⟨hlabel, hchildren⟩ := agree_iff.mp hab
    refine ⟨hlabel.symm, List.Forall₂.flip (forall₂_imp hchildren fun c hc d _ hcd => ih c hc hcd)⟩

theorem Agree.trans (hab : Agree children label a b) (hbc : Agree children label b c) : Agree children label a c := by
  induction a using nodeInduction hsize generalizing b c with
  | step a ih =>
    obtain ⟨hlabel, hchildren⟩ := agree_iff.mp hab
    obtain ⟨hlabel', hchildren'⟩ := agree_iff.mp hbc
    exact ⟨hlabel.trans hlabel', forall₂_trans hchildren hchildren' fun d hd _ _ => ih d hd⟩

/-- Agreement along other children, where these correspond if the children do. -/
theorem Agree.along {children' : N → List N}
    (hmem : ∀ a, ∀ c ∈ children' a, c ∈ children a)
    (hchild : ∀ a b, label a = label b → List.Forall₂ (Agree children label) (children a) (children b) →
      List.Forall₂ (Agree children label) (children' a) (children' b))
    (hab : Agree children label a b) : Agree children' label a b := by
  induction a using nodeInduction hsize generalizing b with
  | step a ih =>
    obtain ⟨hlabel, hchildren⟩ := agree_iff.mp hab
    exact ⟨hlabel, forall₂_imp (hchild a b hlabel hchildren) fun c hc d _ hcd => ih c (hmem a c hc) hcd⟩

/-- A property that the label decides. -/
theorem Everywhere.of_agree (hp : ∀ a b, label a = label b → p a → p b) (ha : Everywhere children p a)
    (hab : Agree children label a b) : Everywhere children p b := by
  induction a using nodeInduction hsize generalizing b with
  | step a ih =>
    obtain ⟨hroot, hevery⟩ := everywhere_iff.mp ha
    obtain ⟨hlabel, hchildren⟩ := agree_iff.mp hab
    refine ⟨hp a b hlabel hroot, fun d hd => ?_⟩
    obtain ⟨c, hc, hcd⟩ := forall₂_right hchildren d hd
    exact ih c hc (hevery c hc) hcd

/-- A comparison of labels that goes on with the children, at nodes with `p` only. -/
def Compares (children : N → List N) (p : N → Prop) (label : N → K) (r : N → N → Prop) : Prop :=
  ∀ a b, r a b ↔ p a ∧ label a = label b ∧ List.Forall₂ r (children a) (children b)

theorem Compares.iff (hr : Compares children p label r) :
    r a b ↔ Everywhere children p a ∧ Agree children label a b := by
  induction a using nodeInduction hsize generalizing b with
  | step a ih =>
    rw [hr a b, everywhere_iff, agree_iff]
    constructor
    · rintro ⟨hp, hlabel, hchildren⟩
      refine ⟨⟨hp, fun c hc => ?_⟩, hlabel, forall₂_imp hchildren fun c hc d _ hcd => ((ih c hc).mp hcd).2⟩
      obtain ⟨d, _, hcd⟩ := forall₂_left hchildren c hc
      exact ((ih c hc).mp hcd).1
    · rintro ⟨⟨hp, hevery⟩, hlabel, hchildren⟩
      exact ⟨hp, hlabel, forall₂_imp hchildren fun c hc d _ hcd => (ih c hc).mpr ⟨hevery c hc, hcd⟩⟩

/-- From one comparison to another one that accepts what agrees. -/
theorem Compares.imp (hr : Compares children p label r)
    (hs : ∀ a b, p a → label a = label b → List.Forall₂ s (children a) (children b) → s a b) (hab : r a b) : s a b := by
  induction a using nodeInduction hsize generalizing b with
  | step a ih =>
    obtain ⟨hp, hlabel, hchildren⟩ := (hr a b).mp hab
    exact hs a b hp hlabel (forall₂_imp hchildren fun c hc d _ => ih c hc)

/-- A function of two labels and of its values at the children. -/
theorem eq_of_agree (hh : ∀ a b, label a = label b → layout a = layout b → (children a).map h = (children b).map h → h a = h b)
    (hab : Agree children label a b) (hab' : Agree children layout a b) : h a = h b := by
  induction a using nodeInduction hsize generalizing b with
  | step a ih =>
    obtain ⟨hlabel, hchildren⟩ := agree_iff.mp hab
    obtain ⟨hlayout, hchildren'⟩ := agree_iff.mp hab'
    refine hh a b hlabel hlayout (forall₂_map_eq.mp ?_)
    exact forall₂_imp (forall₂_and hchildren hchildren') fun c hc d _ hcd => ih c hc hcd.1 hcd.2

/-- A function that determines the second label and its values at the children. -/
theorem agree_of_eq (hh : ∀ a b, label a = label b → h a = h b → layout a = layout b ∧ (children a).map h = (children b).map h)
    (hab : Agree children label a b) (heq : h a = h b) : Agree children layout a b := by
  induction a using nodeInduction hsize generalizing b with
  | step a ih =>
    obtain ⟨hlabel, hchildren⟩ := agree_iff.mp hab
    obtain ⟨hlayout, hmap⟩ := hh a b hlabel heq
    refine ⟨hlayout, ?_⟩
    exact forall₂_imp (forall₂_and hchildren (forall₂_map_eq.mpr hmap)) fun c hc d _ hcd => ih c hc hcd.1 hcd.2

end Agreement

end LabelledTree
