import Ensemble.Proofs.Call.Deadline
import Ensemble.Proofs.Run.Interleaving

/-!
The same branches under two deadlines.  Until the earlier deadline comes, two fleets that differ in
nothing but their deadlines move in step: the same branch is the next to act, at the same tick, and
what they do differs only in what calls still have to do from that deadline on.
-/

namespace Ensemble.Run

/-- One run under two deadlines, the earlier of which comes at a tick. -/
structure Context.Postpones (far near : Context) (t : Nat) : Prop where
  task : far.task = near.task
  stream : far.stream = near.stream
  signals : far.signals.Postpones near.signals t

variable {far near : Context} {t : Nat}

theorem Context.Postpones.trace_cutAt (h : far.Postpones near t) (agent : Agent) (i : Invocation)
    {now : Nat} (hnow : now < t) :
    (Step.trace far agent i now).CutAt t i.author i.id (Step.trace near agent i now) := by
  rw [Step.trace, Step.trace, h.stream]
  exact Call.trace_cutAt h.signals agent near.stream hnow

theorem Context.Postpones.requestFor (h : far.Postpones near t) (i : Invocation) (s : Session)
    (now : Nat) : Step.requestFor far i s now = Step.requestFor near i s now := by
  rw [Step.requestFor, Step.requestFor, h.task, h.stream]

/-- Two searches find the same thing before a tick, or nothing before it. -/
def SameBefore {α : Type} (time : α → Nat) (t : Nat) (a b : Option α) : Prop :=
  (∃ x, time x < t ∧ a = some x ∧ b = some x) ∨
    (∀ x ∈ a, t ≤ time x) ∧ ∀ x ∈ b, t ≤ time x

/-! ## Branches -/

def Phase.isCalling : Phase → Bool
  | .calling _ _ => true
  | _ => false

/-- The place of one branch under two deadlines, the earlier of which comes at a tick. -/
inductive Phase.CutAt (t : Nat) (author id : String) : Phase → Phase → Prop
  | same {p : Phase} (hp : p.isCalling = false) : CutAt t author id p p
  | calling {rest rest' : List (Nat × EventDraft)} {close close' : Close} {called called' : Bool}
      (h : Trace.CutAt t author id ⟨rest, close, called⟩ ⟨rest', close', called'⟩) :
      CutAt t author id (.calling rest close) (.calling rest' close')

section Due

variable {b : Branch} {signals : Signals} {now : Nat} {close : Close}

theorem Branch.dueAt_calling_cons {next : Nat × EventDraft} {rest : List (Nat × EventDraft)}
    (hphase : b.phase = .calling (next :: rest) close) :
    b.dueAt signals now = some (max next.1 now) := by
  rw [dueAt, hphase]

theorem Branch.dueAt_calling_nil (hphase : b.phase = .calling [] close) :
    b.dueAt signals now = close.tick?.map fun tick => max tick now := by
  rw [dueAt, hphase]
  cases close <;> rfl

theorem Branch.sameBefore_dueAt {p : Phase} (h : far.Postpones near t)
    (hnow : now < t) (hp : Phase.CutAt t b.invocation.author b.invocation.id p b.phase) :
    SameBefore (fun tick => tick) t (dueAt { b with phase := p } far.signals now)
      (b.dueAt near.signals now) := by
  have hlate {tick : Nat} (htick : t ≤ tick) : ∀ x ∈ some (max tick now), t ≤ x := by
    intro x hx
    cases hx
    exact htick.trans (Nat.le_max_left tick now)
  generalize hphase : b.phase = q at hp
  cases hp with
  | same hp =>
    rw [dueAt, dueAt, hphase]
    cases p with
    | fresh | granted => exact Or.inl ⟨now, hnow, rfl, rfl⟩
    | ended => exact Or.inr ⟨nofun, nofun⟩
    | calling => cases hp
    | waiting =>
      -- who waits in the queue is called off at the deadline
      refine Or.inr ⟨fun x hx => ?_, fun x hx => ?_⟩
      · obtain ⟨t', ht', hx⟩ := Option.map_eq_some_iff.mp hx
        exact hlate (h.signals.le_first?_far ht') x (congrArg some hx)
      · obtain ⟨t', ht', hx⟩ := Option.map_eq_some_iff.mp hx
        cases h.signals.first?_near.symm.trans ht'
        exact hlate (Nat.le_refl t) x (congrArg some hx)
  | @calling rest rest' close close' _ _ hcut =>
    cases hcut with
    | untouched hdrafts hclose =>
      cases rest with
      | cons next rest =>
        have hnext : next.1 < t := hdrafts next List.mem_cons_self
        exact Or.inl ⟨max next.1 now, Nat.max_lt.mpr ⟨hnext, hnow⟩, dueAt_calling_cons rfl,
          dueAt_calling_cons hphase⟩
      | nil =>
        obtain ⟨tick, htick, hclosed⟩ := hclose
        rw [dueAt_calling_nil rfl, dueAt_calling_nil hphase, hclosed]
        exact Or.inl ⟨max tick now, Nat.max_lt.mpr ⟨htick, hnow⟩, rfl, rfl⟩
    | @cut kept more r hwhole hkept hmore hclose =>
      dsimp only at hwhole hclose
      subst hwhole
      cases kept with
      | cons next kept =>
        have hnext : next.1 < t := hkept next List.mem_cons_self
        exact Or.inl ⟨max next.1 now, Nat.max_lt.mpr ⟨hnext, hnow⟩, dueAt_calling_cons rfl,
          dueAt_calling_cons hphase⟩
      | nil =>
        rw [dueAt_calling_cons hphase]
        refine Or.inr ⟨?_, hlate (Nat.le_refl t)⟩
        cases more with
        | cons next more =>
          rw [List.nil_append, dueAt_calling_cons rfl]
          exact hlate (hmore next List.mem_cons_self)
        | nil =>
          rw [List.nil_append, dueAt_calling_nil rfl]
          intro x hx
          obtain ⟨tick, htick, hx⟩ := Option.map_eq_some_iff.mp hx
          exact hlate (hclose tick htick) x (congrArg some hx)

end Due

/-! ## Fleets -/

namespace Fleet

section Sooner

variable {ctx : Context} {f : Fleet} {position : Nat} {best : Option (Nat × Nat)}

theorem sooner_of_early {tick : Nat} (hdue : f.dueAt ctx position = some tick) (htick : tick < t)
    (hbest : ∀ x ∈ best, t ≤ x.1) : f.sooner ctx best position = some (tick, position) := by
  unfold sooner
  rw [hdue]
  cases best with
  | none => rfl
  | some x =>
    have hx := hbest x rfl
    dsimp only
    rw [if_pos (by omega)]

theorem sooner_of_late {x : Nat × Nat} (hdue : ∀ tick ∈ f.dueAt ctx position, t ≤ tick)
    (hx : x.1 < t) : f.sooner ctx (some x) position = some x := by
  unfold sooner
  cases hposition : f.dueAt ctx position with
  | none => rfl
  | some tick =>
    have htick := hdue tick hposition
    dsimp only
    rw [if_neg (by omega)]

theorem le_sooner (hdue : ∀ tick ∈ f.dueAt ctx position, t ≤ tick) (hbest : ∀ x ∈ best, t ≤ x.1) :
    ∀ x ∈ f.sooner ctx best position, t ≤ x.1 := by
  intro x hx
  unfold sooner at hx
  split at hx
  · exact hbest x hx
  · next htick =>
    cases hx
    exact hdue _ htick
  · next htick =>
    split at hx
    · cases hx
      exact hdue _ htick
    · cases hx
      exact hbest _ rfl

end Sooner

/-- Two fleets that differ only in what calls do from a tick on. -/
structure Twin (t : Nat) (f g : Fleet) : Prop where
  now : f.now = g.now
  pool : f.pool = g.pool
  events : f.events = g.events
  length : f.branches.length = g.branches.length
  branches : ∀ (i : Nat) (b : Branch), g.branches[i]? = some b →
    ∃ p, f.branches[i]? = some { b with phase := p } ∧
      Phase.CutAt t b.invocation.author b.invocation.id p b.phase

variable {f g : Fleet}

theorem twin_refl_start (t : Nat) (registry : Registry) (workers : Nat)
    (references : List AgentReference) :
    (start registry workers references).Twin t (start registry workers references) where
  now := rfl
  pool := rfl
  events := rfl
  length := rfl
  branches := by
    intro i b hb
    refine ⟨b.phase, hb, .same ?_⟩
    obtain ⟨_, -, rfl⟩ := Option.map_eq_some_iff.mp (List.getElem?_mapIdx.symm.trans hb)
    rfl

namespace Twin

theorem withNow (h : f.Twin t g) (tick : Nat) :
    Twin t { f with now := tick } { g with now := tick } :=
  { h with now := rfl }

theorem withPool (h : f.Twin t g) (pool : Pool) :
    Twin t { f with pool := pool } { g with pool := pool } :=
  { h with pool := rfl }

theorem update {position : Nat} {b : Branch} {p : Phase} (h : f.Twin t g)
    (hg : g.branches[position]? = some b) (hf : f.branches[position]? = some { b with phase := p })
    (b' : Branch) (p' : Phase)
    (hp : Phase.CutAt t b'.invocation.author b'.invocation.id p' b'.phase) :
    (f.update position { b' with phase := p' }).Twin t (g.update position b') where
  now := h.now
  pool := h.pool
  events := by
    rw [Fleet.update, Fleet.update, hf, hg, h.events]
    rfl
  length := by
    rw [Fleet.update, Fleet.update, List.length_set, List.length_set, h.length]
  branches := by
    intro i x hx
    have hlt := (List.getElem?_eq_some_iff.mp hg).1
    have hlt' := (List.getElem?_eq_some_iff.mp hf).1
    rw [Fleet.update, List.getElem?_set] at hx ⊢
    by_cases hi : position = i
    · subst hi
      rw [if_pos rfl, if_pos hlt] at hx
      rw [if_pos rfl, if_pos hlt']
      cases hx
      exact ⟨p', rfl, hp⟩
    · rw [if_neg hi] at hx ⊢
      exact h.branches i x hx

theorem release (h : f.Twin t g) : f.release.Twin t g.release := by
  unfold Fleet.release Pool.release
  rw [h.pool]
  cases g.pool.waiting with
  | nil => exact h.withPool _
  | cons first rest =>
    refine { now := h.now, pool := rfl, events := h.events, length := ?_, branches := ?_ }
    · rw [List.length_modify, List.length_modify, h.length]
    · intro i x hx
      rw [List.getElem?_modify] at hx ⊢
      obtain ⟨b, hb, rfl⟩ := Option.map_eq_some_iff.mp hx
      obtain ⟨p, hf, hp⟩ := h.branches i b hb
      rw [hf, Option.map_eq_map, Option.map_some]
      by_cases hi : first = i
      · simp only [if_pos hi]
        exact ⟨.granted, rfl, .same rfl⟩
      · simp only [if_neg hi]
        exact ⟨p, rfl, hp⟩

section Act

variable {position : Nat} {b : Branch}

theorem begin (h : f.Twin t g) (hctx : far.Postpones near t) (hnow : g.now < t)
    (hg : g.branches[position]? = some b) {p : Phase}
    (hf : f.branches[position]? = some { b with phase := p }) (agent : Agent) :
    (f.update position (Branch.begin { b with phase := p } far agent f.now)).Twin t
      (g.update position (b.begin near agent g.now)) := by
  have hcut := hctx.trace_cutAt agent b.invocation hnow
  have hcalled := hcut.called_eq
  have hbegin : Branch.begin { b with phase := p } far agent f.now =
      { b.begin near agent g.now with
        phase := .calling (Step.trace far agent b.invocation g.now).drafts
          (Step.trace far agent b.invocation g.now).close } := by
    simp only [Branch.begin, h.now, ← hcalled, hctx.requestFor]
  rw [hbegin]
  refine h.update hg hf (b.begin near agent g.now) _ ?_
  rw [Branch.begin, Invocation.author_transition, Invocation.id_transition]
  exact .calling hcut

theorem act_same (h : f.Twin t g) (hctx : far.Postpones near t) (hnow : g.now < t)
    (hg : g.branches[position]? = some b) (hf : f.branches[position]? = some b)
    (hp : b.phase.isCalling = false) {before : Nat}
    (hdue : b.dueAt near.signals before = some g.now) :
    (f.act far position b).Twin t (g.act near position b) := by
  have hcalm := hctx.signals.calm_near hnow
  have hcalm' : far.signals.interrupt? f.now = none := by
    rw [h.now]
    exact hctx.signals.calm_far hnow
  have hfail (e : Registry.NotFound) :
      (f.update position (b.fail f.now e)).Twin t (g.update position (b.fail g.now e)) := by
    rw [h.now]
    exact h.update hg hf (b.fail g.now e) .ended (.same rfl)
  unfold Fleet.act
  cases hphase : b.phase with
  | fresh =>
    cases b.agent with
    | error e => exact hfail e
    | ok agent =>
      dsimp only
      unfold Fleet.ask
      rw [hcalm, hcalm', h.pool]
      obtain ⟨pool, answer⟩ := g.pool.acquire position none
      cases answer with
      | refused why =>
        dsimp only
        rw [h.now]
        exact h.update hg hf (b.giveUp g.now) .ended (.same rfl)
      | queued =>
        exact (h.withPool pool).update hg hf { b with phase := .waiting } .waiting (.same rfl)
      | acquired => exact (h.withPool pool).begin hctx hnow hg hf agent
  | granted =>
    cases b.agent with
    | error e => exact hfail e
    | ok agent =>
      dsimp only
      unfold Fleet.takeUp
      rw [hcalm, hcalm']
      exact h.begin hctx hnow hg hf agent
  | waiting =>
    -- nobody leaves the queue before the deadline
    rw [Branch.dueAt, hphase] at hdue
    obtain ⟨t', ht', hmax⟩ := Option.map_eq_some_iff.mp hdue
    cases hctx.signals.first?_near.symm.trans ht'
    omega
  | ended => exact h
  | calling =>
    rw [hphase] at hp
    cases hp

theorem act (h : f.Twin t g) (hctx : far.Postpones near t) (hnow : g.now < t)
    (hg : g.branches[position]? = some b) {p : Phase}
    (hf : f.branches[position]? = some { b with phase := p })
    (hp : Phase.CutAt t b.invocation.author b.invocation.id p b.phase) {before : Nat}
    (hdue : b.dueAt near.signals before = some g.now) :
    (f.act far position { b with phase := p }).Twin t (g.act near position b) := by
  generalize hphase : b.phase = q at hp
  cases hp with
  | same hp =>
    rw [← hphase] at hf hp ⊢
    exact h.act_same hctx hnow hg hf hp hdue
  | @calling rest rest' close close' called called' hcut =>
    have hadd {d : Nat × EventDraft} {more more' : List (Nat × EventDraft)}
        (hmore : Trace.CutAt t b.invocation.author b.invocation.id ⟨more, close, called⟩
          ⟨more', close', called'⟩) :
        (f.update position { b with
            session := b.session.append f.now d.2
            phase := .calling more close }).Twin t
          (g.update position { b with
            session := b.session.append g.now d.2
            phase := .calling more' close' }) := by
      rw [h.now]
      exact h.update hg hf
        { b with session := b.session.append g.now d.2, phase := .calling more' close' } _
        (.calling hmore)
    unfold Fleet.act
    rw [hphase]
    cases hcut with
    | untouched hdrafts hclose =>
      cases rest with
      | cons d rest =>
        exact hadd (.untouched (fun x hx => hdrafts x (List.mem_cons_of_mem d hx)) hclose)
      | nil =>
        cases close with
        | closed tick s r =>
          dsimp only
          rw [h.now]
          exact (h.update hg hf
            { b with invocation := b.invocation.transition g.now s, phase := .ended } .ended
            (.same rfl)).release
        | crashed tick =>
          dsimp only [Branch.crashRecord]
          rw [h.now, h.length]
          exact (h.update hg hf
            { b with
              invocation := b.crashRecord g.branches.length g.now position
              phase := .ended } .ended (.same rfl)).release
        | never =>
          obtain ⟨tick, -, htick⟩ := hclose
          cases htick
    | @cut kept more r hwhole hkept hmore hclose =>
      dsimp only at hwhole hclose
      subst hwhole
      cases kept with
      | cons d kept =>
        exact hadd (.cut rfl (fun x hx => hkept x (List.mem_cons_of_mem d hx)) hmore hclose)
      | nil =>
        -- what is left of the call under the earlier deadline is due when it comes
        simp only [Branch.dueAt, hphase, List.nil_append, Option.some.injEq] at hdue
        omega

end Act

/-! ## In step -/

theorem sameBefore_dueAt (h : f.Twin t g) (hctx : far.Postpones near t) (hnow : g.now < t)
    (position : Nat) :
    SameBefore (fun tick => tick) t (f.dueAt far position) (g.dueAt near position) := by
  unfold Fleet.dueAt
  cases hb : g.branches[position]? with
  | none =>
    have hnone : f.branches[position]? = none := by
      rw [List.getElem?_eq_none_iff, h.length]
      exact List.getElem?_eq_none_iff.mp hb
    rw [hnone]
    exact Or.inr ⟨nofun, nofun⟩
  | some b =>
    obtain ⟨p, hf, hp⟩ := h.branches position b hb
    rw [hf, h.now]
    exact Branch.sameBefore_dueAt hctx hnow hp

theorem sameBefore_sooner (h : f.Twin t g) (hctx : far.Postpones near t) (hnow : g.now < t)
    {best best' : Option (Nat × Nat)} (hbest : SameBefore Prod.fst t best best') (position : Nat) :
    SameBefore Prod.fst t (f.sooner far best position) (g.sooner near best' position) := by
  have hdue := h.sameBefore_dueAt hctx hnow position
  -- before the tick both searches see the same, and whatever comes later gives way to it
  rcases hdue with ⟨tick, htick, hdue, hdue'⟩ | ⟨hdue, hdue'⟩
  · rcases hbest with ⟨x, hx, rfl, rfl⟩ | ⟨hbest, hbest'⟩
    · unfold sooner
      rw [hdue, hdue']
      dsimp only
      split
      · exact Or.inl ⟨_, htick, rfl, rfl⟩
      · exact Or.inl ⟨_, hx, rfl, rfl⟩
    · exact Or.inl ⟨_, htick, sooner_of_early hdue htick hbest, sooner_of_early hdue' htick hbest'⟩
  · rcases hbest with ⟨x, hx, rfl, rfl⟩ | ⟨hbest, hbest'⟩
    · exact Or.inl ⟨x, hx, sooner_of_late hdue hx, sooner_of_late hdue' hx⟩
    · exact Or.inr ⟨le_sooner hdue hbest, le_sooner hdue' hbest'⟩

theorem sameBefore_soonest? (h : f.Twin t g) (hctx : far.Postpones near t) (hnow : g.now < t) :
    SameBefore Prod.fst t (f.soonest? far) (g.soonest? near) := by
  have hfold (positions : List Nat) {best best' : Option (Nat × Nat)}
      (hbest : SameBefore Prod.fst t best best') :
      SameBefore Prod.fst t (positions.foldl (f.sooner far) best)
        (positions.foldl (g.sooner near) best') := by
    induction positions generalizing best best' with
    | nil => exact hbest
    | cons position positions ih => exact ih (h.sameBefore_sooner hctx hnow hbest position)
  rw [soonest?_eq, soonest?_eq, h.length]
  exact hfold _ (Or.inr ⟨nofun, nofun⟩)

theorem turn (h : f.Twin t g) (hctx : far.Postpones near t) {tick position : Nat} (htick : tick < t)
    (hdue : g.dueAt near position = some tick) :
    (f.turn far tick position).Twin t (g.turn near tick position) := by
  unfold Fleet.turn
  unfold Fleet.dueAt at hdue
  cases hb : g.branches[position]? with
  | none =>
    rw [hb] at hdue
    cases hdue
  | some b =>
    rw [hb] at hdue
    obtain ⟨p, hf, hp⟩ := h.branches position b hb
    rw [hf]
    exact (h.withNow tick).act hctx htick hb hf hp hdue

/-- Nothing is left of a difference when everybody has ended. -/
theorem eq_of_ended (h : f.Twin t g) (hended : ∀ b ∈ g.branches, b.isEnded = true) :
    f = g := by
  have hbranches : f.branches = g.branches := by
    refine List.ext_getElem? fun i => ?_
    cases hb : g.branches[i]? with
    | none =>
      rw [List.getElem?_eq_none_iff, h.length]
      exact List.getElem?_eq_none_iff.mp hb
    | some b =>
      obtain ⟨p, hf, hp⟩ := h.branches i b hb
      have hover := hended b (List.mem_of_getElem? hb)
      unfold Branch.isEnded at hover
      generalize hphase : b.phase = phase at hp hover
      cases hp with
      | same => rw [hf, ← hphase]
      | calling => cases hover
  obtain ⟨now, pool, branches, events⟩ := f
  obtain ⟨rfl, rfl, rfl, rfl⟩ :
      now = g.now ∧ pool = g.pool ∧ branches = g.branches ∧ events = g.events :=
    ⟨h.now, h.pool, hbranches, h.events⟩
  rfl

end Twin

/-- The moment from which two fleets go their own ways: they are as they were before the earlier
deadline, and both wait for it. -/
structure Parting (far near : Context) (t : Nat) (f g : Fleet) : Prop where
  twin : f.Twin t g
  early : g.now < t
  far : f.WaitsUntil far t
  near : g.WaitsUntil near t

/-- Two fleets either are in step when they stop, or they part on the way. -/
theorem Twin.advance (h : f.Twin t g) (hctx : far.Postpones near t) (hnow : g.now < t)
    (horderly : g.Orderly 0) (n : Nat) :
    ((Fleet.advance far n f).Twin t (Fleet.advance near n g) ∧ (Fleet.advance near n g).now < t) ∨
      ∃ f' g', Parting far near t f' g' ∧ Reaches far f f' ∧ Reaches near g g' ∧
        Reaches far f' (Fleet.advance far n f) ∧ Reaches near g' (Fleet.advance near n g) := by
  induction n generalizing f g with
  | zero => exact Or.inl ⟨h, hnow⟩
  | succ n ih =>
    rcases h.sameBefore_soonest? hctx hnow with ⟨⟨tick, position⟩, htick, hf, hg⟩ | ⟨hf, hg⟩
    · -- the same branch acts at the same tick
      have hdue := dueAt_of_soonest? hg
      have hmove : g.Move near (g.turn near tick position) := .turn hdue
      have hmove' : f.Move far (f.turn far tick position) := .turn (dueAt_of_soonest? hf)
      obtain ⟨_, _, -, -, -, hshift⟩ := turn_shift hdue horderly
      have hnext : (g.turn near tick position).now < t := by
        rw [hshift.now_eq]
        exact htick
      rw [Fleet.advance, Fleet.advance, hf, hg]
      rcases ih (h.turn hctx htick hdue) hnext (hmove.orderly horderly) with htwin | hparting
      · exact Or.inl htwin
      · obtain ⟨f', g', hparting, hbefore, hbefore', hafter, hafter'⟩ := hparting
        exact Or.inr ⟨f', g', hparting, .head hmove' hbefore, .head hmove hbefore', hafter, hafter'⟩
    · exact Or.inr ⟨f, g, ⟨h, hnow, waitsUntil_of_soonest? hf, waitsUntil_of_soonest? hg⟩, .refl,
        .refl, reaches_advance far _ f, reaches_advance near _ g⟩

end Fleet

end Ensemble.Run
