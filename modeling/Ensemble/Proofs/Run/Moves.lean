import Ensemble.Proofs.Clock
import Ensemble.Proofs.Run.Fleet

/-!
What one action in a fleet changes.  The branch that acts becomes one of a few things, and the pool
changes with it in one of five ways; at most one other branch is touched, which is given the slot
that comes free.
-/

namespace Ensemble.Run

/-- What a branch may become at a tick, by its own action or because a slot is given to it. -/
inductive Branch.Moves (ctx : Context) (now : Nat) (b : Branch) : Branch → Prop
  | failed {e : Registry.NotFound} (hphase : b.phase = .fresh) (hagent : b.agent = .error e) :
      Moves ctx now b (b.fail now e)
  | refused {agent : Agent} {why : Interrupt} (hphase : b.phase = .fresh ∨ b.phase = .granted)
      (hagent : b.agent = .ok agent) (hwhy : ctx.signals.interrupt? now = some why) :
      Moves ctx now b (b.giveUp now)
  | queued {agent : Agent} (hphase : b.phase = .fresh) (hagent : b.agent = .ok agent) :
      Moves ctx now b { b with phase := .waiting }
  | granted (hphase : b.phase = .waiting) : Moves ctx now b { b with phase := .granted }
  | left {why : Interrupt} (hphase : b.phase = .waiting)
      (hwhy : ctx.signals.interrupt? now = some why) : Moves ctx now b (b.giveUp now)
  | began {agent : Agent} (hphase : b.phase = .fresh ∨ b.phase = .granted)
      (hagent : b.agent = .ok agent) (hcalm : ctx.signals.interrupt? now = none) :
      Moves ctx now b (b.begin ctx agent now)
  | added {tick : Nat} {d : EventDraft} {rest : List (Nat × EventDraft)} {close : Close}
      (hphase : b.phase = .calling ((tick, d) :: rest) close) :
      Moves ctx now b { b with session := b.session.append now d, phase := .calling rest close }
  | closed {tick : Nat} {s : Status} {r : Option Response}
      (hphase : b.phase = .calling [] (.closed tick s r)) (htick : tick ≤ now) :
      Moves ctx now b { b with invocation := b.invocation.transition now s, phase := .ended }
  | crashed {tick : Nat} (hphase : b.phase = .calling [] (.crashed tick)) (count position : Nat) :
      Moves ctx now b { b with
        invocation := b.crashRecord count now position
        phase := .ended }

def Branch.isWaiting (b : Branch) : Bool :=
  match b.phase with
  | .waiting => true
  | _ => false

/-- Who is in the queue or holds a slot has an agent. -/
def Branch.Resolved (b : Branch) : Prop :=
  b.isWaiting = true ∨ b.holdsSlot = true → ∃ agent, b.agent = .ok agent

theorem Branch.Moves.resolved {ctx : Context} {now : Nat} {b b' : Branch}
    (hmove : b.Moves ctx now b') (h : b.Resolved) : b'.Resolved := by
  intro hclaims
  cases hmove with
  | failed hphase hagent => simp [isWaiting, holdsSlot, Branch.fail] at hclaims
  | refused hphase hagent hwhy => exact ⟨_, hagent⟩
  | queued hphase hagent => exact ⟨_, hagent⟩
  | granted hphase => exact h (Or.inl (by rw [isWaiting, hphase]))
  | left hphase hwhy => exact h (Or.inl (by rw [isWaiting, hphase]))
  | began hphase hagent hcalm => exact ⟨_, hagent⟩
  | added hphase => exact h (Or.inr (by rw [holdsSlot, hphase]))
  | closed hphase htick => exact h (Or.inr (by rw [holdsSlot, hphase]))
  | crashed hphase => exact h (Or.inr (by rw [holdsSlot, hphase]))

theorem Branch.not_isWaiting_of_holdsSlot {b : Branch} (h : b.holdsSlot = true) :
    b.isWaiting = false := by
  unfold holdsSlot at h
  unfold isWaiting
  cases hphase : b.phase <;> simp_all

theorem Branch.not_isEnded_of_holdsSlot {b : Branch} (h : b.holdsSlot = true) :
    b.isEnded = false := by
  unfold holdsSlot at h
  unfold isEnded
  cases hphase : b.phase <;> simp_all

theorem Branch.isWaiting_iff {b : Branch} : b.isWaiting = true ↔ b.phase = .waiting := by
  unfold isWaiting
  cases b.phase <;> simp

namespace Fleet

/-- How a fleet takes in what a branch has become: the pool changes with the branch. -/
inductive Shift (f : Fleet) (position : Nat) (b b' : Branch) : Fleet → Prop
  | kept (hwaiting : b.isWaiting = false) (hwaiting' : b'.isWaiting = false)
      (hslot : b'.holdsSlot = b.holdsSlot) : Shift f position b b' (f.update position b')
  | joined (hfull : f.pool.free = 0) (hwaiting : b.isWaiting = false)
      (hslot : b.holdsSlot = false) (hwaiting' : b'.isWaiting = true) :
      Shift f position b b'
        ({ f with pool := { f.pool with waiting := f.pool.waiting ++ [position] } }.update
          position b')
  | left (hwaiting : b.isWaiting = true) (hwaiting' : b'.isWaiting = false)
      (hslot' : b'.holdsSlot = false) :
      Shift f position b b' ({ f with pool := f.pool.abandon position }.update position b')
  | took {n : Nat} (hfree : f.pool.free = n + 1) (hwaiting : b.isWaiting = false)
      (hslot : b.holdsSlot = false) (hslot' : b'.holdsSlot = true) :
      Shift f position b b' ({ f with pool := { f.pool with free := n } }.update position b')
  | gaveBack (hslot : b.holdsSlot = true) (hwaiting' : b'.isWaiting = false)
      (hslot' : b'.holdsSlot = false) : Shift f position b b' (f.update position b').release

variable {ctx : Context} {f : Fleet} {position : Nat} {b : Branch}

theorem ask_shift {agent : Agent} (hphase : b.phase = .fresh) (hagent : b.agent = .ok agent) :
    ∃ b', b.Moves ctx f.now b' ∧ f.Shift position b b' (f.ask ctx position b agent) := by
  have hwaiting : b.isWaiting = false := by rw [Branch.isWaiting, hphase]
  have hslot : b.holdsSlot = false := by rw [Branch.holdsSlot, hphase]
  unfold ask Pool.acquire
  cases hwhy : ctx.signals.interrupt? f.now with
  | some why => exact ⟨_, .refused (Or.inl hphase) hagent hwhy, .kept hwaiting rfl hslot.symm⟩
  | none =>
    cases hfree : f.pool.free with
    | zero =>
      have hshift : f.Shift position b { b with phase := .waiting } _ :=
        .joined hfree hwaiting hslot rfl
      simp only [hfree] at hshift
      exact ⟨_, .queued hphase hagent, hshift⟩
    | succ n => exact ⟨_, .began (Or.inl hphase) hagent hwhy, .took hfree hwaiting hslot rfl⟩

theorem takeUp_shift {agent : Agent} (hphase : b.phase = .granted) (hagent : b.agent = .ok agent) :
    ∃ b', b.Moves ctx f.now b' ∧ f.Shift position b b' (f.takeUp ctx position b agent) := by
  have hwaiting : b.isWaiting = false := by rw [Branch.isWaiting, hphase]
  have hslot : b.holdsSlot = true := by rw [Branch.holdsSlot, hphase]
  unfold takeUp
  cases hwhy : ctx.signals.interrupt? f.now with
  | some why => exact ⟨_, .refused (Or.inr hphase) hagent hwhy, .gaveBack hslot rfl rfl⟩
  | none => exact ⟨_, .began (Or.inr hphase) hagent hwhy, .kept hwaiting rfl hslot.symm⟩

/-- A branch that acts when it is due makes one of its moves, and the pool follows. -/
theorem act_shift {before : Nat} (hdue : b.dueAt ctx.signals before = some f.now)
    (hresolved : b.phase = .granted → ∃ agent, b.agent = .ok agent) :
    ∃ b', b.Moves ctx f.now b' ∧ f.Shift position b b' (f.act ctx position b) := by
  unfold Branch.dueAt at hdue
  unfold act
  cases hphase : b.phase with
  | fresh =>
    cases hagent : b.agent with
    | ok agent => exact ask_shift hphase hagent
    | error e =>
      have hslot : b.holdsSlot = false := by rw [Branch.holdsSlot, hphase]
      have hwaiting : b.isWaiting = false := by rw [Branch.isWaiting, hphase]
      exact ⟨_, .failed hphase hagent, .kept hwaiting rfl hslot.symm⟩
  | waiting =>
    -- the signal that it waits for has come
    simp only [hphase, Option.map_eq_some_iff] at hdue
    obtain ⟨t, hfirst, hmax⟩ := hdue
    have hsome : (ctx.signals.interrupt? f.now).isSome :=
      Signals.interrupt?_isSome_iff.mpr ⟨t, hfirst, by omega⟩
    obtain ⟨why, hwhy⟩ := Option.isSome_iff_exists.mp hsome
    exact ⟨_, .left hphase hwhy, .left (Branch.isWaiting_iff.mpr hphase) rfl rfl⟩
  | granted =>
    obtain ⟨agent, hagent⟩ := hresolved hphase
    rw [hagent]
    exact takeUp_shift hphase hagent
  | calling rest close =>
    have hslot : b.holdsSlot = true := by rw [Branch.holdsSlot, hphase]
    have hwaiting : b.isWaiting = false := by rw [Branch.isWaiting, hphase]
    simp only [hphase] at hdue
    cases rest with
    | cons next rest => exact ⟨_, .added hphase, .kept hwaiting rfl hslot.symm⟩
    | nil =>
      cases close with
      | closed tick s r =>
        simp only [Option.some.injEq] at hdue
        exact ⟨_, .closed hphase (by omega), .gaveBack hslot rfl rfl⟩
      | crashed tick => exact ⟨_, .crashed hphase _ _, .gaveBack hslot rfl rfl⟩
      | never => cases hdue
  | ended =>
    rw [hphase] at hdue
    cases hdue

theorem release_eq_update {first : Nat} {rest : List Nat} {x : Branch}
    (hwaiting : f.pool.waiting = first :: rest) (hx : f.branches[first]? = some x) :
    f.release = { f with pool := { f.pool with waiting := rest } }.update first
      { x with phase := .granted } := by
  rw [release_cons hwaiting, update, List.modify_eq_set_getElem?, hx]
  simp [Session.length]

/-! ## The pool -/

/-- Whether the branch at a position is in the queue for a slot. -/
def Waits (f : Fleet) (position : Nat) : Prop :=
  ∃ b, f.branches[position]? = some b ∧ b.isWaiting = true

/-- A fleet whose pool counts right, but for so many slots that nobody holds any more and that have
not been given back: every other slot is free or held, none is free while somebody waits, and the
queue holds exactly those who wait. -/
structure Orderly (f : Fleet) (owed : Nat) : Prop where
  balance : f.pool.free + f.branches.countP Branch.holdsSlot + owed = f.pool.size
  eager : f.pool.free = 0 ∨ f.pool.waiting = []
  nodup : f.pool.waiting.Nodup
  queue : ∀ i, i ∈ f.pool.waiting ↔ f.Waits i
  resolved : ∀ b ∈ f.branches, b.Resolved

theorem orderly_start (registry : Registry) (workers : Nat) (references : List AgentReference) :
    (start registry workers references).Orderly 0 := by
  have hfresh : ∀ b ∈ (start registry workers references).branches, b.phase = .fresh := by
    intro b hb
    obtain ⟨i, hi, rfl⟩ := List.mem_mapIdx.mp hb
    rfl
  have hidle : ∀ b ∈ (start registry workers references).branches,
      b.isWaiting = false ∧ b.holdsSlot = false := by
    intro b hb
    rw [Branch.isWaiting, Branch.holdsSlot, hfresh b hb]
    exact ⟨rfl, rfl⟩
  constructor
  case balance =>
    rw [List.countP_eq_zero.mpr]
    · rfl
    · intro b hb
      rw [(hidle b hb).2]
      exact Bool.false_ne_true
  case eager => exact Or.inr rfl
  case nodup => exact List.nodup_nil
  case queue =>
    intro i
    constructor
    · intro h
      cases h
    · rintro ⟨b, hb, hwaiting⟩
      rw [(hidle b (List.mem_of_getElem? hb)).1] at hwaiting
      cases hwaiting
  case resolved =>
    intro b hb hclaims
    rw [(hidle b hb).1, (hidle b hb).2] at hclaims
    simp at hclaims

section Update

variable {b' : Branch} (hb : f.branches[position]? = some b)

include hb

theorem countP_holdsSlot_update (b' : Branch) :
    (f.update position b').branches.countP Branch.holdsSlot + (if b.holdsSlot then 1 else 0) =
      f.branches.countP Branch.holdsSlot + (if b'.holdsSlot then 1 else 0) := by
  obtain ⟨hlt, rfl⟩ := List.getElem?_eq_some_iff.mp hb
  have hle : (if f.branches[position].holdsSlot = true then 1 else 0) ≤
      f.branches.countP Branch.holdsSlot := List.boole_getElem_le_countP hlt
  rw [update, List.countP_set hlt]
  omega

theorem waits_update (b' : Branch) (i : Nat) :
    (f.update position b').Waits i ↔ if i = position then b'.isWaiting = true else f.Waits i := by
  have hlt : position < f.branches.length := (List.getElem?_eq_some_iff.mp hb).1
  unfold Waits update
  by_cases hi : i = position
  · subst hi
    simp [hlt]
  · rw [if_neg hi]
    simp [List.getElem?_set_ne (Ne.symm hi)]

theorem waits_iff : f.Waits position ↔ b.isWaiting = true := by
  simp [Waits, hb]

end Update

namespace Orderly

variable {b' : Branch} {owed : Nat}

theorem not_mem_waiting (h : f.Orderly owed) (hb : f.branches[position]? = some b)
    (hwaiting : b.isWaiting = false) : position ∉ f.pool.waiting := by
  rw [h.queue, waits_iff hb, hwaiting]
  exact Bool.false_ne_true

theorem isWaiting_eq_of_nil (h : f.Orderly owed) (hempty : f.pool.waiting = [])
    (hb : b ∈ f.branches) : b.isWaiting = false := by
  obtain ⟨i, hi⟩ := List.getElem?_of_mem hb
  have hnone := h.queue i
  rw [hempty, waits_iff hi] at hnone
  exact Bool.eq_false_iff.mpr fun hwaiting => List.not_mem_nil (hnone.mpr hwaiting)

/-- The pool changes as the branch does. -/
theorem update {pool : Pool} {left : Nat} (h : f.Orderly owed)
    (hb : f.branches[position]? = some b) (hresolved : b'.Resolved)
    (hsize : pool.size = f.pool.size)
    (hfree : pool.free + (if b'.holdsSlot then 1 else 0) + left =
      f.pool.free + (if b.holdsSlot then 1 else 0) + owed)
    (heager : pool.free = 0 ∨ pool.waiting = []) (hnodup : pool.waiting.Nodup)
    (hqueue : ∀ i, i ∈ pool.waiting ↔
      if i = position then b'.isWaiting = true else i ∈ f.pool.waiting) :
    ({ f with pool := pool }.update position b').Orderly left where
  balance := by
    have hcount := countP_holdsSlot_update hb b'
    have hbalance := h.balance
    show pool.free + (f.update position b').branches.countP Branch.holdsSlot + left = pool.size
    omega
  eager := heager
  nodup := hnodup
  queue := by
    intro i
    refine (hqueue i).trans ?_
    rw [h.queue, ← waits_update hb b' i]
    rfl
  resolved := by
    intro x hx
    rcases List.mem_or_eq_of_mem_set hx with hx | rfl
    · exact h.resolved x hx
    · exact hresolved

/-- The queue stays as it is when a branch neither waits nor waited. -/
theorem queue_update (h : f.Orderly owed) (hb : f.branches[position]? = some b)
    (hwaiting : b.isWaiting = false) (hwaiting' : b'.isWaiting = false) (i : Nat) :
    i ∈ f.pool.waiting ↔ if i = position then b'.isWaiting = true else i ∈ f.pool.waiting := by
  split
  · next hi =>
    rw [hi, hwaiting']
    exact iff_of_false (h.not_mem_waiting hb hwaiting) Bool.false_ne_true
  · rfl

/-- A slot that comes free goes to the first in the queue. -/
theorem release (h : f.Orderly 1) : f.release.Orderly 0 := by
  cases hwaiting : f.pool.waiting with
  | nil =>
    rw [release_nil hwaiting]
    refine { h with balance := ?_, eager := Or.inr hwaiting }
    have hbalance := h.balance
    dsimp only
    omega
  | cons first rest =>
    obtain ⟨x, hx, hxwaiting⟩ := (h.queue first).mp (by rw [hwaiting]; exact List.mem_cons_self)
    have hxphase := Branch.isWaiting_iff.mp hxwaiting
    have hxslot : x.holdsSlot = false := by rw [Branch.holdsSlot, hxphase]
    have hnodup := h.nodup
    rw [hwaiting, List.nodup_cons] at hnodup
    have hfull : f.pool.free = 0 :=
      h.eager.resolve_right (by rw [hwaiting]; exact List.cons_ne_nil _ _)
    rw [release_eq_update hwaiting hx]
    have hresolved : Branch.Resolved { x with phase := .granted } := fun _ =>
      h.resolved x (List.mem_of_getElem? hx) (Or.inl hxwaiting)
    refine h.update hx hresolved rfl ?_ (Or.inl hfull) hnodup.2 ?_
    · rw [hxslot]
      rfl
    · intro i
      dsimp only
      rw [hwaiting, List.mem_cons]
      split
      · next hi =>
        rw [hi]
        exact iff_of_false hnodup.1 Bool.false_ne_true
      · next hi => exact (or_iff_right hi).symm

theorem update_of_gaveBack (h : f.Orderly 0) (hb : f.branches[position]? = some b)
    (hmove : b.Moves ctx f.now b') (hslot : b.holdsSlot = true) (hwaiting' : b'.isWaiting = false)
    (hslot' : b'.holdsSlot = false) : (f.update position b').Orderly 1 :=
  h.update hb (hmove.resolved (h.resolved b (List.mem_of_getElem? hb))) rfl
    (by rw [hslot, hslot']; rfl) h.eager h.nodup
    (h.queue_update hb (Branch.not_isWaiting_of_holdsSlot hslot) hwaiting')

theorem shift {g : Fleet} (h : f.Orderly 0) (hb : f.branches[position]? = some b)
    (hmove : b.Moves ctx f.now b') (hshift : f.Shift position b b' g) : g.Orderly 0 := by
  have hresolved := hmove.resolved (h.resolved b (List.mem_of_getElem? hb))
  cases hshift with
  | kept hwaiting hwaiting' hslot =>
    exact h.update hb hresolved rfl (by rw [hslot]) h.eager h.nodup
      (h.queue_update hb hwaiting hwaiting')
  | joined hfull hwaiting hslot hwaiting' =>
    have hslot' : b'.holdsSlot = false := by
      rw [Branch.holdsSlot, Branch.isWaiting_iff.mp hwaiting']
    have hfree := h.not_mem_waiting hb hwaiting
    refine h.update hb hresolved rfl (by rw [hslot, hslot']) (Or.inl hfull) ?_ ?_
    · rw [← List.concat_eq_append]
      exact h.nodup.concat hfree
    · intro i
      rw [List.mem_append, List.mem_singleton]
      split
      · next hi => exact iff_of_true (Or.inr hi) hwaiting'
      · next hi => exact or_iff_left hi
  | left hwaiting hwaiting' hslot' =>
    have hslot : b.holdsSlot = false := by
      rw [Branch.holdsSlot, Branch.isWaiting_iff.mp hwaiting]
    have hfull : f.pool.free = 0 := by
      refine h.eager.resolve_right fun hnil => ?_
      rw [h.isWaiting_eq_of_nil hnil (List.mem_of_getElem? hb)] at hwaiting
      cases hwaiting
    refine h.update hb hresolved rfl (by rw [hslot, hslot']; rfl) (Or.inl hfull)
      (h.nodup.sublist List.filter_sublist) ?_
    intro i
    rw [Pool.abandon, List.mem_filter, decide_eq_true_eq]
    split
    · next hi =>
      rw [hwaiting']
      exact iff_of_false (fun hmem => hmem.2 hi) Bool.false_ne_true
    · next hi => exact and_iff_left hi
  | took hfree hwaiting hslot hslot' =>
    have hnil : f.pool.waiting = [] := h.eager.resolve_left (by omega)
    refine h.update hb hresolved rfl ?_ (Or.inr hnil) h.nodup
      (h.queue_update hb hwaiting (Branch.not_isWaiting_of_holdsSlot hslot'))
    rw [hslot, hslot', hfree]
    rfl
  | gaveBack hslot hwaiting' hslot' =>
    exact (h.update_of_gaveBack hb hmove hslot hwaiting' hslot').release

end Orderly

end Fleet

end Ensemble.Run
