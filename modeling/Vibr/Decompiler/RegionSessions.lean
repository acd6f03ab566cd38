import Vibr.Decompiler.RegionRuns

/-!
# Sessions

A session is a run of calls in which the state can be taken back to that of a checkpoint. After a
commit the checkpoints from before it are not used any more.
-/

namespace Angr.Overlay

open OverlayManager (undo)

variable {T V : Type} [DecidableEq T]

/-- A state, and the checkpoints that it can be taken back to, the latest one first, with the
regions that were live. -/
structure Session (T V : Type) where
  world : World T V
  saved : List (Nat × Finset Nat)

inductive Command (T V : Type) where
  | call (self : Nat) (verb : Verb T V)
  | checkpoint
  | rollback (target : Nat)
  | commit (target : Nat)

namespace Session

variable (it : IterOrder T)

def start (graph : DiGraph T V) (exposeLoopHeadBackedges : Bool) (head : Option (Tx T)) : Session T V where
  world := .start graph exposeLoopHeadBackedges head
  saved := []

def checkpoint (s : Session T V) : Session T V where
  world := { s.world with manager := s.world.manager.checkpoint.1 }
  saved := (s.world.manager.checkpoint.2, s.world.live) :: s.saved

def rollback (s : Session T V) (target : Nat) : Session T V :=
  match s.world.manager.rollback target, s.saved.dropWhile fun e => e.1 ≠ target with
  | some manager, e :: saved => { world := { manager := manager, live := e.2 }, saved := e :: saved }
  | _, _ => s

def commit (s : Session T V) (target : Nat) : Session T V :=
  match s.world.manager.commit target with
  | some manager => { world := { s.world with manager := manager }, saved := [] }
  | none => s

def step (s : Session T V) : Command T V → Session T V
  | .call self verb => { s with world := s.world.call it (self, verb) }
  | .checkpoint => s.checkpoint
  | .rollback target => s.rollback target
  | .commit target => s.commit target

/-- Calls are made on live regions and do not raise an error, and rollbacks are to a checkpoint. -/
def Legal (s : Session T V) : Command T V → Prop
  | .call self verb => s.world.Legal it (self, verb)
  | .checkpoint => True
  | .rollback target => target ∈ s.saved.map Prod.fst
  | .commit _ => s.world.manager.undoLog.isSome

end Session

/-! ## What a rollback gives back -/

variable {it : IterOrder T} {c c' c₀ : Core T V} {live live' : Finset Nat} {log log' : List (Inverse T V)}
variable {saved rest : List (Nat × Finset Nat)} {e : Nat × Finset Nat} {target : Nat}

/-- From everything that has the tree of `c`, the inverses lead to the tree of `c₀`. -/
def Undoable (c₀ : Core T V) (log : List (Inverse T V)) (c : Core T V) : Prop :=
  ∀ c', SameTree c c' → c.graph.nodes ⊆ c'.graph.nodes →
    SameTree c₀ (undo log c') ∧ c₀.graph.nodes ⊆ (undo log c').graph.nodes

omit [DecidableEq T] in
theorem SameTree.refl (c : Core T V) : SameTree c c :=
  ⟨rfl, Nat.le_refl _, fun _ _ => rfl, fun _ _ => rfl, fun _ _ => rfl, fun _ _ => rfl, fun _ _ => rfl⟩

theorem Undoable.of_sameTree (hsame : SameTree c c') (hnodes : c.graph.nodes ⊆ c'.graph.nodes) : Undoable c [] c' :=
  fun _ hsame' hnodes' => ⟨hsame.trans hsame', hnodes.trans hnodes'⟩

theorem Undoable.trans (h : Undoable c₀ log c) (h' : Undoable c log' c') : Undoable c₀ (log' ++ log) c' := by
  intro c'' hsame hnodes
  rw [undo_append]
  obtain ⟨hsame', hnodes'⟩ := h' c'' hsame hnodes
  exact h _ hsame' hnodes'

theorem Trace.undoable {ok : Core T V → Change T V → Prop} (h : Trace it ok c live log c' live') (htree : Tree c live)
    (hplaced : Placed c) : Undoable c log c' := fun _ hsame hnodes =>
  ⟨h.undo_tree htree hplaced hsame, h.undo_nodes hnodes⟩

/-- The log leads back to a good state at every checkpoint. -/
def Restorable : List (Inverse T V) → Core T V → List (Nat × Finset Nat) → Prop
  | _, _, [] => True
  | log, c, e :: saved => e.1 ≤ log.length ∧ ∃ c₀, Tree c₀ e.2 ∧ Placed c₀ ∧
      Undoable c₀ (log.take (log.length - e.1)) c ∧ Restorable (log.drop (log.length - e.1)) c₀ saved

theorem Restorable.extend (h : Restorable log c saved) (hundo : Undoable c log' c') :
    Restorable (log' ++ log) c' saved := by
  cases saved with
  | nil => trivial
  | cons e saved =>
    obtain ⟨hle, c₀, htree, hplaced, hundo₀, hrest⟩ := h
    have hlength : (log' ++ log).length - e.1 = log'.length + (log.length - e.1) := by
      rw [List.length_append]
      omega
    refine ⟨by rw [List.length_append]; omega, c₀, htree, hplaced, ?_, ?_⟩
    · rw [hlength, List.take_length_add_append]
      exact hundo₀.trans hundo
    · rw [hlength, List.drop_length_add_append]
      exact hrest

/-- The checkpoint that is rolled back to. -/
theorem Restorable.at_checkpoint (h : Restorable log c saved) (hsaved : saved.dropWhile (fun e => e.1 ≠ target) = e :: rest) :
    e.1 = target ∧ target ≤ log.length ∧ ∃ c₀, Tree c₀ e.2 ∧ Placed c₀ ∧
      Undoable c₀ (log.take (log.length - target)) c ∧ Restorable (log.drop (log.length - target)) c₀ rest := by
  induction saved generalizing log c with
  | nil => cases hsaved
  | cons e' saved ih =>
    obtain ⟨hle, c₁, htree₁, hplaced₁, hundo₁, hrest₁⟩ := h
    rw [List.dropWhile_cons] at hsaved
    split at hsaved
    · -- the checkpoint is an earlier one
      obtain ⟨heq, hle', c₀, htree, hplaced, hundo, hrest⟩ := ih hrest₁ hsaved
      have hlength : (log.drop (log.length - e'.1)).length = e'.1 := by
        rw [List.length_drop]
        omega
      rw [hlength] at hle' hundo hrest
      have hsum : log.length - target = (log.length - e'.1) + (e'.1 - target) := by omega
      refine ⟨heq, by omega, c₀, htree, hplaced, ?_, ?_⟩
      · rw [hsum, List.take_add]
        exact hundo.trans hundo₁
      · rw [List.drop_drop] at hrest
        rw [hsum]
        exact hrest
    · rename_i hfound
      cases hsaved
      have heq : e.1 = target := by simpa using hfound
      rw [← heq]
      exact ⟨rfl, hle, c₁, htree₁, hplaced₁, hundo₁, hrest₁⟩

/-! ## Every state of a session -/

namespace Session

structure Good (s : Session T V) : Prop where
  world : s.world.Good
  restorable : s.saved = [] ∨ ∃ log, s.world.manager.undoLog = some log ∧ Restorable log s.world.manager.core s.saved

variable {s : Session T V} {cmd : Command T V}

theorem Good.call {self : Nat} {verb : Verb T V} (h : s.Good) (hlegal : s.world.Legal it (self, verb)) :
    (s.step it (.call self verb)).Good := by
  refine ⟨h.world.call hlegal, h.restorable.imp_right ?_⟩
  rintro ⟨log, hlog, hrestorable⟩
  have hdoes : Does it (Ok False False ∅) s.world.manager s.world.live _ _ :=
    World.call_does h.world hlegal False.elim False.elim
  obtain ⟨log', htrace, hlog'⟩ := hdoes
  refine ⟨log' ++ log, ?_, hrestorable.extend (htrace.undoable h.world.tree h.world.placed)⟩
  rw [step, hlog', hlog]
  rfl

theorem Good.checkpoint (h : s.Good) : s.checkpoint.Good := by
  refine ⟨⟨h.world.tree, h.world.placed⟩, .inr ⟨s.world.manager.undoLog.getD [], rfl, ?_⟩⟩
  have hrest : Restorable (s.world.manager.undoLog.getD []) s.world.manager.core s.saved := by
    rcases h.restorable with hnil | ⟨log, hlog, hrestorable⟩
    · rw [hnil]
      trivial
    · rw [hlog]
      exact hrestorable
  refine ⟨Nat.le_refl _, s.world.manager.core, h.world.tree, h.world.placed, ?_, ?_⟩
  · dsimp only [OverlayManager.checkpoint]
    rw [Nat.sub_self, List.take_zero]
    exact .of_sameTree (.refl _) (Finset.Subset.refl _)
  · dsimp only [OverlayManager.checkpoint]
    rw [Nat.sub_self, List.drop_zero]
    exact hrest

theorem Good.rollback (h : s.Good) : (s.rollback target).Good := by
  unfold Session.rollback
  split
  · rename_i manager e saved hmanager hsaved
    have hsome : s.saved ≠ [] := by
      intro heq
      rw [heq] at hsaved
      cases hsaved
    obtain ⟨log, hlog, hrestorable⟩ := h.restorable.resolve_left hsome
    obtain ⟨heq, hle, c₀, htree, hplaced, hundo, hrest⟩ := hrestorable.at_checkpoint hsaved
    unfold OverlayManager.rollback at hmanager
    rw [hlog] at hmanager
    cases Option.some.inj hmanager
    obtain ⟨hsame, hnodes⟩ := hundo s.world.manager.core (.refl _) (Finset.Subset.refl _)
    have htree' := htree.congr hsame
    have hplaced' : Placed (undo (log.take (log.length - target)) s.world.manager.core) := by
      intro n o ho
      rw [hsame.owner] at ho
      exact hnodes (hplaced n o ho)
    refine ⟨⟨htree', hplaced'⟩, .inr ⟨log.drop (log.length - target), rfl, ?_⟩⟩
    have hlength : (log.drop (log.length - target)).length = target := by
      rw [List.length_drop]
      omega
    refine ⟨(heq.trans hlength.symm).le, _, htree', hplaced', ?_, ?_⟩
    · rw [hlength, heq, Nat.sub_self, List.take_zero]
      exact .of_sameTree (.refl _) (Finset.Subset.refl _)
    · rw [hlength, heq, Nat.sub_self, List.drop_zero]
      exact hrest.extend (.of_sameTree hsame hnodes)
  · exact h

theorem Good.commit (h : s.Good) : (s.commit target).Good := by
  unfold Session.commit
  split
  · rename_i manager hmanager
    refine ⟨?_, .inl rfl⟩
    unfold OverlayManager.commit at hmanager
    obtain ⟨log, -, heq⟩ := Option.bind_eq_some_iff.mp hmanager
    cases Option.some.inj heq
    exact ⟨h.world.tree, h.world.placed⟩
  · exact h

theorem Good.step (h : s.Good) (hlegal : s.Legal it cmd) : (s.step it cmd).Good := by
  cases cmd with
  | call self verb => exact h.call hlegal
  | checkpoint => exact h.checkpoint
  | rollback target => exact h.rollback
  | commit target => exact h.commit

/-- The region tree is sound in every state of a session. -/
theorem good_of_reach {graph : DiGraph T V} {expose : Bool} {head : Option (Tx T)}
    (h : Runs.Reach (step it) (fun s cmd => s.Legal it cmd) (start graph expose head) s) : s.Good :=
  h.invariant Good ⟨World.start_good graph expose head, .inl rfl⟩ fun _ _ hgood hlegal => hgood.step hlegal

end Session

end Angr.Overlay
