import Ensemble.Proofs.Run.Branch
import Mathlib.Data.List.Basic
import Mathlib.Data.List.Nodup

/-!
Side by side, branches only share the pool.  Whichever branch acts next, every branch keeps to what
it does on its own, and whoever is in the queue of the pool is indeed waiting.
-/

namespace Ensemble

theorem Pool.acquire_cases (p : Pool) (who : Nat) (interrupt : Option Interrupt) :
    (∃ r, p.acquire who interrupt = (p, .refused r)) ∨
      p.acquire who interrupt = ({ p with waiting := p.waiting ++ [who] }, .queued) ∨
      ∃ n, p.acquire who interrupt = ({ p with free := n }, .acquired) := by
  unfold acquire
  cases interrupt with
  | some why => exact Or.inl ⟨_, rfl⟩
  | none =>
    cases hfree : p.free with
    | zero =>
      refine Or.inr (Or.inl ?_)
      simp only [← hfree]
    | succ n => exact Or.inr (Or.inr ⟨n, rfl⟩)

namespace Run

namespace Fleet

/-- A fleet whose branches all are as they would be alone. -/
structure Sound (registry : Registry) (references : List AgentReference) (f : Fleet) : Prop where
  length : f.branches.length = references.length
  branches : ∀ (i : Nat) (r : AgentReference) (b : Branch), references[i]? = some r →
    f.branches[i]? = some b → b.Sound registry r
  nodup : f.pool.waiting.Nodup
  waiting : ∀ i ∈ f.pool.waiting, ∃ b, f.branches[i]? = some b ∧ b.phase = .waiting

variable {registry : Registry} {references : List AgentReference} {f : Fleet} {position : Nat}
  {b b' : Branch}

theorem sound_start (workers : Nat)
    (hlive : ∀ r ∈ references, registry.resolve r ≠ .ok .crashing) :
    (start registry workers references).Sound registry references where
  length := List.length_mapIdx
  branches := by
    intro i r b hr hb
    rw [start, List.getElem?_mapIdx, hr, Option.map_some] at hb
    rw [← Option.some.inj hb]
    exact Branch.sound_start i (hlive r (List.mem_of_getElem? hr))
  nodup := List.nodup_nil
  waiting := fun _ hi => (List.not_mem_nil hi).elim

theorem release_nil (hwaiting : f.pool.waiting = []) :
    f.release = { f with pool := { f.pool with free := f.pool.free + 1 } } := by
  unfold release Pool.release
  simp only [hwaiting]

theorem release_cons {first : Nat} {rest : List Nat} (hwaiting : f.pool.waiting = first :: rest) :
    f.release =
      { f with
        pool := { f.pool with waiting := rest }
        branches := f.branches.modify first fun b => { b with phase := .granted } } := by
  unfold release Pool.release
  simp only [hwaiting]

namespace Sound

theorem exists_reference (h : f.Sound registry references)
    (hb : f.branches[position]? = some b) : ∃ r, references[position]? = some r := by
  have hlt : position < f.branches.length := (List.getElem?_eq_some_iff.mp hb).1
  rw [h.length] at hlt
  exact ⟨_, List.getElem?_eq_getElem hlt⟩

theorem branch (h : f.Sound registry references) (hb : b ∈ f.branches) :
    ∃ r, b.Sound registry r := by
  obtain ⟨i, hi, hib⟩ := List.getElem_of_mem hb
  have hget : f.branches[i]? = some b := by rw [List.getElem?_eq_getElem hi, hib]
  obtain ⟨r, hr⟩ := h.exists_reference hget
  exact ⟨r, h.branches i r b hr hget⟩

theorem not_mem_waiting (h : f.Sound registry references) (hb : f.branches[position]? = some b)
    (hphase : b.phase ≠ .waiting) : position ∉ f.pool.waiting := by
  intro hmem
  obtain ⟨x, hx, hwaiting⟩ := h.waiting position hmem
  cases hb.symm.trans hx
  exact hphase hwaiting

theorem withPool (h : f.Sound registry references) {pool : Pool}
    (hpool : pool.waiting.Sublist f.pool.waiting) :
    Sound registry references { f with pool := pool } :=
  { length := h.length
    branches := h.branches
    nodup := h.nodup.sublist hpool
    waiting := fun i hi => h.waiting i (hpool.subset hi) }

theorem update (h : f.Sound registry references) (hb : f.branches[position]? = some b)
    (hfree : position ∉ f.pool.waiting) (hstep : ∀ r, b.Sound registry r → b'.Sound registry r) :
    (f.update position b').Sound registry references := by
  -- only this place changes, and nobody in the queue stands there
  have hlt : position < f.branches.length := (List.getElem?_eq_some_iff.mp hb).1
  constructor
  case length => exact List.length_set.trans h.length
  case branches =>
    intro i r x hr hx
    rw [Fleet.update, List.getElem?_set] at hx
    by_cases hi : position = i
    · subst hi
      rw [if_pos rfl, if_pos hlt] at hx
      rw [← Option.some.inj hx]
      exact hstep r (h.branches position r b hr hb)
    · rw [if_neg hi] at hx
      exact h.branches i r x hr hx
  case nodup => exact h.nodup
  case waiting =>
    intro i hi
    obtain ⟨x, hx, hwaiting⟩ := h.waiting i hi
    have hne : position ≠ i := fun heq => hfree (heq ▸ hi)
    exact ⟨x, by rw [Fleet.update, List.getElem?_set_ne hne]; exact hx, hwaiting⟩

theorem enqueue (h : f.Sound registry references) (hb : f.branches[position]? = some b)
    (hphase : b.phase = .waiting) (hfree : position ∉ f.pool.waiting) :
    Sound registry references
      { f with pool := { f.pool with waiting := f.pool.waiting ++ [position] } } where
  length := h.length
  branches := h.branches
  nodup := by
    rw [← List.concat_eq_append]
    exact h.nodup.concat hfree
  waiting := by
    intro i hi
    rcases List.mem_append.mp hi with hi | hi
    · exact h.waiting i hi
    · rw [List.mem_singleton.mp hi]
      exact ⟨b, hb, hphase⟩

theorem release (h : f.Sound registry references) : f.release.Sound registry references := by
  -- the slot goes to the first in the queue, who waits no longer
  cases hwaiting : f.pool.waiting with
  | nil =>
    rw [release_nil hwaiting]
    exact h.withPool (List.Sublist.refl f.pool.waiting)
  | cons first rest =>
    have hnodup := h.nodup
    rw [hwaiting, List.nodup_cons] at hnodup
    obtain ⟨x, hx, hphase⟩ := h.waiting first (by rw [hwaiting]; exact List.mem_cons_self)
    rw [release_cons hwaiting]
    constructor
    case length => exact (List.length_modify _ _ _).trans h.length
    case branches =>
      intro i r y hr hy
      dsimp only at hy
      by_cases hi : first = i
      · subst hi
        rw [List.getElem?_modify_eq, hx] at hy
        rw [← Option.some.inj hy]
        -- the branch that gets the slot was waiting, so it is still silent
        exact (h.branches first r x hr hx).grant hphase
      · rw [List.getElem?_modify_ne _ _ hi] at hy
        exact h.branches i r y hr hy
    case nodup => exact hnodup.2
    case waiting =>
      intro i hi
      have hne : first ≠ i := fun heq => hnodup.1 (heq ▸ hi)
      obtain ⟨y, hy, hwaits⟩ := h.waiting i (by rw [hwaiting]; exact List.mem_cons_of_mem _ hi)
      exact ⟨y, by rw [List.getElem?_modify_ne _ _ hne]; exact hy, hwaits⟩

variable (ctx : Context) {agent : Agent}

theorem ask (h : f.Sound registry references) (hb : f.branches[position]? = some b)
    (hphase : b.phase = .fresh) (hagent : b.agent = .ok agent) :
    (f.ask ctx position b agent).Sound registry references := by
  have hfree : position ∉ f.pool.waiting := h.not_mem_waiting hb (by rw [hphase]; nofun)
  unfold Fleet.ask
  obtain ⟨why, hanswer⟩ | hanswer | ⟨n, hanswer⟩ :=
    f.pool.acquire_cases position (ctx.signals.interrupt? f.now)
  · rw [hanswer]
    exact h.update hb hfree fun r hr => hr.giveUp (hr.silent_of_fresh hphase) hagent
  · -- the branch is marked as waiting first and joins the queue then
    rw [hanswer]
    have hlt : position < f.branches.length := (List.getElem?_eq_some_iff.mp hb).1
    have hwaits := h.update hb hfree fun r hr => hr.queue (hr.silent_of_fresh hphase) hagent
    exact hwaits.enqueue (List.getElem?_set_self hlt) rfl hfree
  · rw [hanswer]
    have hslot : Sound registry references { f with pool := { f.pool with free := n } } :=
      h.withPool (List.Sublist.refl f.pool.waiting)
    exact hslot.update hb hfree fun r hr => hr.begin (hr.silent_of_fresh hphase) hagent ctx

theorem takeUp (h : f.Sound registry references) (hb : f.branches[position]? = some b)
    (hphase : b.phase = .granted) (hagent : b.agent = .ok agent) :
    (f.takeUp ctx position b agent).Sound registry references := by
  have hfree : position ∉ f.pool.waiting := h.not_mem_waiting hb (by rw [hphase]; nofun)
  unfold Fleet.takeUp
  cases ctx.signals.interrupt? f.now with
  | some why =>
    exact (h.update hb hfree fun r hr => hr.giveUp (hr.silent_of_granted hphase).1 hagent).release
  | none =>
    exact h.update hb hfree fun r hr => hr.begin (hr.silent_of_granted hphase).1 hagent ctx

/-- Whatever a branch does next, all branches stay as they would be alone. -/
theorem act (h : f.Sound registry references) (hb : f.branches[position]? = some b) :
    (f.act ctx position b).Sound registry references := by
  obtain ⟨r, hsound⟩ := h.branch (List.mem_of_getElem? hb)
  have hfree (hphase : b.phase ≠ .waiting) : position ∉ f.pool.waiting :=
    h.not_mem_waiting hb hphase
  unfold Fleet.act
  cases hphase : b.phase with
  | fresh =>
    cases hagent : b.agent with
    | error e =>
      exact h.update hb (hfree (by rw [hphase]; nofun)) fun r hr =>
        hr.fail (hr.silent_of_fresh hphase) hagent
    | ok agent => exact h.ask ctx hb hphase hagent
  | waiting =>
    obtain ⟨-, agent, hagent⟩ := hsound.silent_of_waiting hphase
    -- it leaves the queue before it ends, so the queue still holds branches that wait
    have hgone : position ∉ (f.pool.abandon position).waiting := by
      rw [Pool.abandon, List.mem_filter, decide_eq_true_eq]
      exact fun hmem => hmem.2 rfl
    have hleft : Sound registry references { f with pool := f.pool.abandon position } :=
      h.withPool List.filter_sublist
    exact hleft.update hb hgone fun r hr => hr.giveUp (hr.silent_of_waiting hphase).1 hagent
  | granted =>
    obtain ⟨-, agent, hagent⟩ := hsound.silent_of_granted hphase
    rw [hagent]
    exact h.takeUp ctx hb hphase hagent
  | calling rest close =>
    cases rest with
    | cons next rest =>
      -- an event of the call is added, and the queue is not touched
      exact h.update hb (hfree (by rw [hphase]; nofun)) fun r hr => hr.take hphase
    | nil =>
      cases close with
      | closed tick s response =>
        exact (h.update hb (hfree (by rw [hphase]; nofun)) fun r hr => hr.finish hphase).release
      | crashed tick => exact absurd hphase hsound.not_crashed
      | never => exact h
  | ended => exact h

theorem turn (h : f.Sound registry references) (tick position : Nat) :
    (f.turn ctx tick position).Sound registry references := by
  unfold Fleet.turn
  cases hb : f.branches[position]? with
  | none => exact h
  | some b =>
    have hnow : Sound registry references { f with now := tick } :=
      { length := h.length, branches := h.branches, nodup := h.nodup, waiting := h.waiting }
    exact hnow.act ctx hb

theorem advance (h : f.Sound registry references) (n : Nat) :
    (Fleet.advance ctx n f).Sound registry references := by
  induction n generalizing f with
  | zero => exact h
  | succ n ih =>
    unfold Fleet.advance
    cases f.soonest? ctx with
    | none => exact h
    | some next => exact ih (h.turn ctx next.1 next.2)

end Sound

end Fleet

/-- A run side by side finishes when all its branches have ended. -/
theorem ended_of_sideBySide {ctx : Context} {registry : Registry} {workers : Nat}
    {references : List AgentReference} {o : Outcome}
    (h : sideBySide ctx registry workers references = .finished o) :
    (∀ b ∈ (Fleet.advance ctx (Fleet.start registry workers references).work
        (Fleet.start registry workers references)).branches, b.isEnded = true) ∧
      o = (Fleet.advance ctx (Fleet.start registry workers references).work
        (Fleet.start registry workers references)).outcome ctx.signals := by
  unfold sideBySide at h
  dsimp only at h
  split at h
  · next hended =>
    cases h
    exact ⟨List.all_eq_true.mp hended, rfl⟩
  · cases h

end Run

end Ensemble
