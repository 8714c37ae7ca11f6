import Ensemble.Proofs.Run.Moves
import Mathlib.Logic.Relation

/-!
Every order in which branches may act.  A fleet moves on by letting some branch act that can, and
the clock moves to the tick at which it can; which branch that is does not matter to what holds of
all fleets that are reached.
-/

namespace Ensemble.Run

theorem Branch.le_of_dueAt {b : Branch} {signals : Signals} {now tick : Nat}
    (h : b.dueAt signals now = some tick) : now ≤ tick := by
  unfold dueAt at h
  split at h
  all_goals simp only [Option.some.injEq, reduceCtorEq, Option.map_eq_some_iff] at h
  all_goals omega

namespace Fleet

variable {ctx : Context} {f g : Fleet} {position : Nat} {b b' : Branch}

/-! ## One action -/

/-- Some branch that can act does so, at its tick. -/
inductive Move (ctx : Context) (f : Fleet) : Fleet → Prop
  | turn {tick position : Nat} (hdue : f.dueAt ctx position = some tick) :
      Move ctx f (f.turn ctx tick position)

theorem Orderly.withNow {owed : Nat} (h : f.Orderly owed) (tick : Nat) :
    Orderly { f with now := tick } owed :=
  { balance := h.balance, eager := h.eager, nodup := h.nodup, queue := h.queue,
    resolved := h.resolved }

theorem turn_shift {tick : Nat} (hdue : f.dueAt ctx position = some tick)
    (horderly : f.Orderly 0) :
    ∃ b b', b.dueAt ctx.signals f.now = some tick ∧ f.branches[position]? = some b ∧
      b.Moves ctx tick b' ∧ Shift { f with now := tick } position b b' (f.turn ctx tick position) := by
  unfold dueAt at hdue
  cases hb : f.branches[position]? with
  | none =>
    rw [hb] at hdue
    cases hdue
  | some b =>
    rw [hb] at hdue
    have hresolved : b.phase = .granted → ∃ agent, b.agent = .ok agent := fun hphase =>
      horderly.resolved b (List.mem_of_getElem? hb) (Or.inr (by rw [Branch.holdsSlot, hphase]))
    obtain ⟨b', hmove, hshift⟩ := act_shift (f := { f with now := tick }) hdue hresolved
    refine ⟨b, b', hdue, rfl, hmove, ?_⟩
    rw [Fleet.turn, hb]
    exact hshift

theorem Move.shift (h : f.Move ctx g) (horderly : f.Orderly 0) :
    ∃ tick position b b', f.now ≤ tick ∧ b.dueAt ctx.signals f.now = some tick ∧
      f.branches[position]? = some b ∧ b.Moves ctx tick b' ∧
        Shift { f with now := tick } position b b' g := by
  obtain ⟨hdue⟩ := h
  obtain ⟨b, b', hbdue, hb, hmove, hshift⟩ := turn_shift hdue horderly
  exact ⟨_, _, b, b', Branch.le_of_dueAt hbdue, hbdue, hb, hmove, hshift⟩

theorem Move.orderly (h : f.Move ctx g) (horderly : f.Orderly 0) : g.Orderly 0 := by
  obtain ⟨tick, position, b, b', -, -, hb, hmove, hshift⟩ := h.shift horderly
  exact (horderly.withNow tick).shift hb hmove hshift

/-- What is kept by every change of the pool and by every move of a branch is kept when a slot is
given back: the branch that gets it makes a move as well. -/
theorem Orderly.preserves_release {P : Fleet → Prop}
    (hpool : ∀ f pool, P f → P { f with pool := pool })
    (hupdate : ∀ f position b b', P f → f.branches[position]? = some b → b.Moves ctx f.now b' →
      P (f.update position b'))
    (horderly : f.Orderly 1) (h : P f) : P f.release := by
  cases hwaiting : f.pool.waiting with
  | nil =>
    rw [release_nil hwaiting]
    exact hpool _ _ h
  | cons first rest =>
    obtain ⟨x, hx, hxwaiting⟩ := (horderly.queue first).mp (by
      rw [hwaiting]
      exact List.mem_cons_self)
    rw [release_eq_update hwaiting hx]
    exact hupdate _ first x _ (hpool _ _ h) hx (.granted (Branch.isWaiting_iff.mp hxwaiting))

namespace Shift

theorem now_eq (h : f.Shift position b b' g) : g.now = f.now := by
  cases h with
  | gaveBack =>
    unfold release
    split <;> rfl
  | _ => rfl

theorem size_eq (h : f.Shift position b b' g) : g.pool.size = f.pool.size := by
  cases h with
  | gaveBack =>
    unfold release Pool.release
    cases (f.update position b').pool.waiting <;> rfl
  | _ => rfl

theorem events_eq (h : f.Shift position b b' g) : g.events = (f.update position b').events := by
  cases h with
  | gaveBack =>
    unfold release
    split <;> rfl
  | _ => rfl

/-- What is kept by every change of the pool and by every move of a branch is kept by an action. -/
theorem preserves {P : Fleet → Prop} (hpool : ∀ f pool, P f → P { f with pool := pool })
    (hupdate : ∀ f position b b', P f → f.branches[position]? = some b → b.Moves ctx f.now b' →
      P (f.update position b'))
    (horderly : f.Orderly 0) (hb : f.branches[position]? = some b) (hmove : b.Moves ctx f.now b')
    (hshift : f.Shift position b b' g) (h : P f) : P g := by
  cases hshift with
  | kept => exact hupdate f position b b' h hb hmove
  | joined => exact hupdate _ position b b' (hpool f _ h) hb hmove
  | left => exact hupdate _ position b b' (hpool f _ h) hb hmove
  | took => exact hupdate _ position b b' (hpool f _ h) hb hmove
  | gaveBack hslot hwaiting' hslot' =>
    exact Orderly.preserves_release hpool hupdate
      (horderly.update_of_gaveBack hb hmove hslot hwaiting' hslot')
      (hupdate f position b b' h hb hmove)

end Shift

/-! ## Any number of actions -/

/-- What holds of every branch, at its position and for its reference. -/
def Each (references : List AgentReference) (Q : Nat → AgentReference → Nat → Branch → Prop)
    (f : Fleet) : Prop :=
  ∀ i r b, references[i]? = some r → f.branches[i]? = some b → Q i r f.now b

section Each

variable {references : List AgentReference} {Q : Nat → AgentReference → Nat → Branch → Prop}

theorem each_start {registry : Registry} (workers : Nat)
    (hstart : ∀ i r, references[i]? = some r → Q i r 0 (Branch.start registry i r)) :
    (start registry workers references).Each references Q := by
  intro i r b hr hb
  rw [start, List.getElem?_mapIdx, hr, Option.map_some] at hb
  rw [← Option.some.inj hb]
  exact hstart i r hr

theorem Each.update (h : f.Each references Q) (hb : f.branches[position]? = some b)
    (hstep : ∀ r, Q position r f.now b → Q position r f.now b') :
    (f.update position b').Each references Q := by
  have hlt : position < f.branches.length := (List.getElem?_eq_some_iff.mp hb).1
  intro i r x hr hx
  rw [Fleet.update, List.getElem?_set] at hx
  by_cases hi : position = i
  · subst hi
    rw [if_pos rfl, if_pos hlt] at hx
    rw [← Option.some.inj hx]
    exact hstep r (h position r b hr hb)
  · rw [if_neg hi] at hx
    exact h i r x hr hx

end Each

/-- What may become of a fleet, in whatever order its branches act. -/
def Reaches (ctx : Context) : Fleet → Fleet → Prop :=
  Relation.ReflTransGen (Move ctx)

namespace Reaches

theorem orderly (h : Reaches ctx f g) (horderly : f.Orderly 0) : g.Orderly 0 := by
  induction h with
  | refl => exact horderly
  | tail _ hmove ih => exact hmove.orderly ih

theorem size_eq (h : Reaches ctx f g) (horderly : f.Orderly 0) : g.pool.size = f.pool.size := by
  induction h with
  | refl => rfl
  | tail hbefore hmove ih =>
    obtain ⟨tick, position, b, b', -, -, -, -, hshift⟩ := hmove.shift (orderly hbefore horderly)
    exact hshift.size_eq.trans ih

/-- What is kept when time passes, by every change of the pool and by every move of a branch holds
of all fleets that are reached. -/
theorem invariant {P : Fleet → Prop}
    (hclock : ∀ f tick, f.now ≤ tick → P f → P { f with now := tick })
    (hpool : ∀ f pool, P f → P { f with pool := pool })
    (hupdate : ∀ f position b b', P f → f.branches[position]? = some b → b.Moves ctx f.now b' →
      P (f.update position b'))
    (h : Reaches ctx f g) (horderly : f.Orderly 0) (hstart : P f) : P g := by
  induction h with
  | refl => exact hstart
  | tail hbefore hmove ih =>
    have hmiddle := orderly hbefore horderly
    obtain ⟨tick, position, b, b', hle, -, hb, hmoves, hshift⟩ := hmove.shift hmiddle
    exact hshift.preserves hpool hupdate (hmiddle.withNow tick) hb hmoves (hclock _ tick hle ih)

theorem length_eq (h : Reaches ctx f g) (horderly : f.Orderly 0) :
    g.branches.length = f.branches.length :=
  h.invariant (P := fun g => g.branches.length = f.branches.length) (fun _ _ _ h => h)
    (fun _ _ h => h) (fun _ _ _ _ h _ _ => List.length_set.trans h) horderly rfl

variable {registry : Registry} {workers : Nat} {references : List AgentReference}
  {Q : Nat → AgentReference → Nat → Branch → Prop}

/-- Whoever waits for a slot waits for somebody who holds one. -/
theorem exists_holdsSlot (h : Reaches ctx (start registry workers references) f) {b : Branch}
    (hb : b ∈ f.branches) (hwaiting : b.isWaiting = true) :
    ∃ x ∈ f.branches, x.holdsSlot = true := by
  have horderly := h.orderly (orderly_start registry workers references)
  have hfull : f.pool.free = 0 := by
    refine horderly.eager.resolve_right fun hempty => ?_
    rw [horderly.isWaiting_eq_of_nil hempty hb] at hwaiting
    cases hwaiting
  have hsize : f.pool.size = max workers 1 :=
    h.size_eq (orderly_start registry workers references)
  have hbalance := horderly.balance
  exact List.countP_pos_iff.mp (by omega)

/-- What is kept of every branch while time passes and by the moves of that branch alone is kept
however the fleet moves on. -/
theorem each (hclock : ∀ i r now tick b, now ≤ tick → Q i r now b → Q i r tick b)
    (hmove : ∀ i r now b b', Q i r now b → b.Moves ctx now b' → Q i r now b')
    (h : Reaches ctx f g) (horderly : f.Orderly 0) (hf : f.Each references Q) :
    g.Each references Q :=
  h.invariant (P := Each references Q)
    (fun _ _ hle hf i r b hr hb => hclock _ _ _ _ _ hle (hf i r b hr hb)) (fun _ _ hf => hf)
    (fun _ _ _ _ hf hb hmoves => hf.update hb fun r hr => hmove _ r _ _ _ hr hmoves) horderly hf

/-- What holds of every branch at its start, and is kept while time passes and by the moves of that
branch alone, holds of it however the fleet moves on. -/
theorem branch (hstart : ∀ i r, references[i]? = some r → Q i r 0 (Branch.start registry i r))
    (hclock : ∀ i r now tick b, now ≤ tick → Q i r now b → Q i r tick b)
    (hmove : ∀ i r now b b', Q i r now b → b.Moves ctx now b' → Q i r now b')
    (h : Reaches ctx (start registry workers references) f) {i : Nat} {r : AgentReference}
    {b : Branch} (hr : references[i]? = some r) (hb : f.branches[i]? = some b) :
    Q i r f.now b :=
  h.each hclock hmove (orderly_start registry workers references) (each_start workers hstart) i r b
    hr hb

end Reaches

/-! ## The run itself -/

section Soonest

variable (ctx f)

/-- One step of the search for the branch that can act first. -/
def sooner (best : Option (Nat × Nat)) (position : Nat) : Option (Nat × Nat) :=
  match f.dueAt ctx position, best with
  | none, best => best
  | some tick, none => some (tick, position)
  | some tick, some (t, p) => if tick < t then some (tick, position) else some (t, p)

theorem soonest?_eq : f.soonest? ctx = (List.range f.branches.length).foldl (f.sooner ctx) none :=
  rfl

variable {ctx f}

theorem dueAt_of_foldl_sooner {positions : List Nat} {best : Option (Nat × Nat)} {tick p : Nat}
    (hbest : ∀ t p, best = some (t, p) → f.dueAt ctx p = some t)
    (h : positions.foldl (f.sooner ctx) best = some (tick, p)) : f.dueAt ctx p = some tick := by
  induction positions generalizing best with
  | nil => exact hbest tick p h
  | cons position positions ih =>
    refine ih ?_ h
    intro t p hp
    unfold sooner at hp
    split at hp
    · exact hbest t p hp
    · next hdue =>
      cases hp
      exact hdue
    · next hdue =>
      split at hp
      · cases hp
        exact hdue
      · exact hbest t p hp

theorem foldl_sooner_eq_none {positions : List Nat} {best : Option (Nat × Nat)}
    (h : positions.foldl (f.sooner ctx) best = none) :
    best = none ∧ ∀ p ∈ positions, f.dueAt ctx p = none := by
  induction positions generalizing best with
  | nil => exact ⟨h, fun _ hp => (List.not_mem_nil hp).elim⟩
  | cons position positions ih =>
    obtain ⟨hnone, hrest⟩ := ih h
    unfold sooner at hnone
    split at hnone
    · next hdue => exact ⟨hnone, List.forall_mem_cons.mpr ⟨hdue, hrest⟩⟩
    · cases hnone
    · split at hnone <;> cases hnone

theorem dueAt_of_soonest? {tick p : Nat} (h : f.soonest? ctx = some (tick, p)) :
    f.dueAt ctx p = some tick := by
  rw [soonest?_eq] at h
  apply dueAt_of_foldl_sooner _ h
  intro t p hp
  cases hp

theorem dueAt_eq_none_of_soonest? (h : f.soonest? ctx = none) (hb : b ∈ f.branches) :
    b.dueAt ctx.signals f.now = none := by
  rw [soonest?_eq] at h
  obtain ⟨i, hi, rfl⟩ := List.getElem_of_mem hb
  have hdue := (foldl_sooner_eq_none h).2 i (List.mem_range.mpr hi)
  rw [dueAt, List.getElem?_eq_getElem hi] at hdue
  exact hdue

theorem le_of_sooner {best : Option (Nat × Nat)} {position tick : Nat}
    (h : ∀ b ∈ f.sooner ctx best position, tick ≤ b.1) :
    (∀ b ∈ best, tick ≤ b.1) ∧ ∀ t ∈ f.dueAt ctx position, tick ≤ t := by
  unfold sooner at h
  cases hdue : f.dueAt ctx position with
  | none =>
    rw [hdue] at h
    exact ⟨h, fun t ht => by cases ht⟩
  | some due =>
    rw [hdue] at h
    cases best with
    | none =>
      have hle : tick ≤ due := h (due, position) rfl
      simpa using hle
    | some b =>
      -- the earlier of the two was taken, so the other one is no earlier
      simp only [Option.mem_def, Option.some.injEq, forall_eq'] at h ⊢
      split at h
      · have hle : tick ≤ due := h (due, position) rfl
        omega
      · have hle : tick ≤ b.1 := h (b.1, b.2) rfl
        omega

theorem le_of_foldl_sooner {positions : List Nat} {best : Option (Nat × Nat)} {tick p : Nat}
    (h : positions.foldl (f.sooner ctx) best = some (tick, p)) :
    (∀ b ∈ best, tick ≤ b.1) ∧ ∀ q ∈ positions, ∀ t ∈ f.dueAt ctx q, tick ≤ t := by
  induction positions generalizing best with
  | nil =>
    refine ⟨?_, fun _ hq => (List.not_mem_nil hq).elim⟩
    intro b hb
    cases h.symm.trans hb
    exact Nat.le_refl _
  | cons position positions ih =>
    obtain ⟨hbest, hrest⟩ := ih h
    obtain ⟨hbefore, hposition⟩ := le_of_sooner hbest
    exact ⟨hbefore, List.forall_mem_cons.mpr ⟨hposition, hrest⟩⟩

/-- No branch could have acted before the one that acts first. -/
theorem le_of_soonest? {tick p q t : Nat} (h : f.soonest? ctx = some (tick, p))
    (hdue : f.dueAt ctx q = some t) : tick ≤ t := by
  rw [soonest?_eq] at h
  refine (le_of_foldl_sooner h).2 q (List.mem_range.mpr ?_) t hdue
  by_contra hq
  rw [dueAt, List.getElem?_eq_none (Nat.le_of_not_lt hq)] at hdue
  cases hdue

end Soonest

/-! ## Waiting -/

/-- No branch can act before a tick. -/
def WaitsUntil (ctx : Context) (t : Nat) (f : Fleet) : Prop :=
  ∀ i tick, f.dueAt ctx i = some tick → t ≤ tick

theorem waitsUntil_of_soonest? {t : Nat} (h : ∀ x ∈ f.soonest? ctx, t ≤ x.1) :
    f.WaitsUntil ctx t := by
  intro i tick hdue
  cases hsoonest : f.soonest? ctx with
  | none =>
    unfold dueAt at hdue
    split at hdue
    · next b hb =>
      cases hdue.symm.trans (dueAt_eq_none_of_soonest? hsoonest (List.mem_of_getElem? hb))
    · cases hdue
  | some x => exact (h x hsoonest).trans (le_of_soonest? hsoonest hdue)

/-- What the moves of every branch keep from a tick on is kept by a fleet that waits until then. -/
theorem WaitsUntil.each {t : Nat} {R : Nat → Branch → Prop} (hwaits : f.WaitsUntil ctx t)
    (hmove : ∀ i now b b', t ≤ now → R i b → b.Moves ctx now b' → R i b') (h : Reaches ctx f g)
    (horderly : f.Orderly 0) (hf : ∀ i b, f.branches[i]? = some b → R i b) :
    ∀ i b, g.branches[i]? = some b → R i b := by
  have hupdate (f : Fleet) (position : Nat) (b b' : Branch)
      (hf : t ≤ f.now ∧ ∀ i b, f.branches[i]? = some b → R i b)
      (hb : f.branches[position]? = some b) (hmoves : b.Moves ctx f.now b') :
      t ≤ (f.update position b').now ∧
        ∀ i b, (f.update position b').branches[i]? = some b → R i b := by
    refine ⟨hf.1, fun i x hx => ?_⟩
    rw [Fleet.update, List.getElem?_set] at hx
    split at hx
    · next hi =>
      split at hx
      · cases hx
        exact hi ▸ hmove position f.now b b' hf.1 (hf.2 position b hb) hmoves
      · cases hx
    · exact hf.2 i x hx
  rcases Relation.ReflTransGen.cases_head h with rfl | ⟨f', hfirst, hrest⟩
  · exact hf
  · -- the first move comes at the tick or later, and the clock never goes back
    obtain ⟨tick, position, b, b', -, hdue, hb, hmoves, hshift⟩ := hfirst.shift horderly
    have hle : t ≤ tick := hwaits position tick (by rw [dueAt, hb]; exact hdue)
    have hf' : t ≤ f'.now ∧ ∀ i b, f'.branches[i]? = some b → R i b :=
      hshift.preserves (P := fun g => t ≤ g.now ∧ ∀ i b, g.branches[i]? = some b → R i b)
        (fun _ _ h => h) hupdate (horderly.withNow tick) hb hmoves ⟨hle, hf⟩
    exact (Reaches.invariant (P := fun g => t ≤ g.now ∧ ∀ i b, g.branches[i]? = some b → R i b)
      (fun _ _ hle h => ⟨h.1.trans hle, h.2⟩) (fun _ _ h => h) hupdate hrest
      (hfirst.orderly horderly) hf').2

/-- A run lets its branches act in one of all the orders. -/
theorem reaches_advance (ctx : Context) (n : Nat) (f : Fleet) :
    Reaches ctx f (advance ctx n f) := by
  induction n generalizing f with
  | zero => exact .refl
  | succ n ih =>
    unfold advance
    cases hnext : f.soonest? ctx with
    | none => exact .refl
    | some next => exact .head (.turn (dueAt_of_soonest? hnext)) (ih _)

/-- What holds of every branch at its start, is kept by its own moves, and is kept while the clock
moves no further than to where the branch can act, holds of all branches of a run. -/
theorem forall_mem_advance {Q : Nat → Branch → Prop}
    (hclock : ∀ now tick b, now ≤ tick → (∀ t, b.dueAt ctx.signals now = some t → tick ≤ t) →
      Q now b → Q tick b)
    (hmove : ∀ now b b', Q now b → b.Moves ctx now b' → Q now b')
    (horderly : f.Orderly 0) (hstart : ∀ b ∈ f.branches, Q f.now b) (n : Nat) :
    ∀ b ∈ (advance ctx n f).branches, Q (advance ctx n f).now b := by
  induction n generalizing f with
  | zero => exact hstart
  | succ n ih =>
    unfold advance
    cases hnext : f.soonest? ctx with
    | none => exact hstart
    | some next =>
      obtain ⟨tick, position⟩ := next
      have hdue := dueAt_of_soonest? hnext
      have hturn : f.Move ctx (f.turn ctx tick position) := .turn hdue
      obtain ⟨b, b', hbdue, hb, hmoves, hshift⟩ := turn_shift hdue horderly
      have hlater : ∀ x ∈ f.branches, Q tick x := by
        intro x hx
        obtain ⟨q, hq⟩ := List.getElem?_of_mem hx
        refine hclock _ _ x (Branch.le_of_dueAt hbdue) (fun t ht => ?_) (hstart x hx)
        exact le_of_soonest? hnext (q := q) (by rw [dueAt, hq]; exact ht)
      refine ih (hturn.orderly horderly) ?_
      exact hshift.preserves (P := fun g => ∀ x ∈ g.branches, Q g.now x) (fun _ _ h => h)
        (fun g p x x' hg hx hmoves y hy => by
          rcases List.mem_or_eq_of_mem_set hy with hy | rfl
          · exact hg y hy
          · exact hmove _ x _ (hg x (List.mem_of_getElem? hx)) hmoves)
        (horderly.withNow tick) hb hmoves hlater

end Fleet

/-- The outcomes of a run with a branch for every reference, in whatever order its branches act. -/
def MayEndWith (ctx : Context) (registry : Registry) (workers : Nat)
    (references : List AgentReference) (o : Outcome) : Prop :=
  ∃ f, Fleet.Reaches ctx (Fleet.start registry workers references) f ∧
    f.branches.all Branch.isEnded = true ∧ f.outcome ctx.signals = o

theorem mayEndWith_of_sideBySide {ctx : Context} {registry : Registry} {workers : Nat}
    {references : List AgentReference} {o : Outcome}
    (h : sideBySide ctx registry workers references = .finished o) :
    MayEndWith ctx registry workers references o := by
  obtain ⟨hended, rfl⟩ := ended_of_sideBySide h
  exact ⟨_, Fleet.reaches_advance ctx _ _, List.all_eq_true.mpr hended, rfl⟩

end Ensemble.Run
