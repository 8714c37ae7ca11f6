import Ensemble.Proofs.Run.Gathering
import Ensemble.Proofs.Run.Lockstep

/-!
What follows a deadline.  From its tick on nobody begins any more: who waits for a slot gives up,
and a call that was cut off adds its response and the report that it has timed out.  Without the
deadline everything goes on, and sessions are only added to.
-/

namespace Ensemble

/-- Added before a tick. -/
def Event.Before (t : Nat) (e : Event) : Prop :=
  ∃ tick < t, e.timestamp = .ofTick tick

/-- Added at a tick or later. -/
def Event.From (t : Nat) (e : Event) : Prop :=
  ∃ tick ≥ t, e.timestamp = .ofTick tick

theorem Session.before_appendAll {t : Nat} {s : Session} {ds : List (Nat × EventDraft)}
    (hs : ∀ e ∈ s.events, e.Before t) (hds : ∀ d ∈ ds, d.1 < t) :
    ∀ e ∈ (s.appendAll ds).events, e.Before t := by
  intro e he
  rcases mem_events_appendAll he with he | ⟨d, hd, hstamp, -⟩
  · exact hs e he
  · exact ⟨d.1, hds d hd, hstamp⟩

/-- The same session later on, when events have been added to it from a tick on. -/
structure Session.GrownFrom (t : Nat) (s s' : Session) : Prop where
  id : s'.id = s.id
  events : ∃ more, s'.events = s.events ++ more ∧ ∀ e ∈ more, e.From t

namespace Session.GrownFrom

variable {t : Nat} {s s' s'' : Session}

theorem refl (t : Nat) (s : Session) : s.GrownFrom t s :=
  ⟨rfl, [], (List.append_nil _).symm, fun _ he => (List.not_mem_nil he).elim⟩

theorem trans (h : s.GrownFrom t s') (h' : s'.GrownFrom t s'') : s.GrownFrom t s'' := by
  obtain ⟨more, hmore, hfrom⟩ := h.events
  obtain ⟨more', hmore', hfrom'⟩ := h'.events
  refine ⟨h'.id.trans h.id, more ++ more', ?_, List.forall_mem_append.mpr ⟨hfrom, hfrom'⟩⟩
  rw [hmore', hmore, List.append_assoc]

theorem append {now : Nat} (hnow : t ≤ now) (s : Session) (d : EventDraft) :
    s.GrownFrom t (s.append now d) :=
  ⟨rfl, [s.stamp now d], rfl, List.forall_mem_singleton.mpr ⟨now, hnow, rfl⟩⟩

theorem appendAll {ds : List (Nat × EventDraft)} (hds : ∀ d ∈ ds, t ≤ d.1) (s : Session) :
    s.GrownFrom t (s.appendAll ds) := by
  induction ds generalizing s with
  | nil => exact refl t s
  | cons d ds ih =>
    rw [List.forall_mem_cons] at hds
    exact (append hds.1 s d.2).trans (ih hds.2 (s.append d.1 d.2))

end Session.GrownFrom

namespace Run

variable {ctx far near : Context} {t now : Nat} {b x x' : Branch}

theorem Branch.Moves.grownFrom (h : x.Moves ctx now x') (hnow : t ≤ now) :
    x.session.GrownFrom t x'.session := by
  obtain ⟨new, hnew, hstamped⟩ := h.events_eq
  exact ⟨congrArg Prod.snd h.origin_eq, new, hnew, fun e he => ⟨now, hnow, hstamped e he⟩⟩

theorem Branch.Moves.not_ended (h : x.Moves ctx now x') : x.phase ≠ .ended := by
  intro hended
  cases h with
  | refused hphase | began hphase => rcases hphase with h | h <;> cases hended.symm.trans h
  | failed hphase | queued hphase | granted hphase | left hphase | added hphase | closed hphase
  | crashed hphase => cases hended.symm.trans hphase

/-! ## The end of a branch -/

/-- What may become of a branch from a deadline on. -/
inductive Branch.Winding (t : Nat) (b x : Branch) : Prop
  | settled (hb : b.phase.isCalling = false) (hx : x.phase = .ended)
      (hlog : x.session.drafts = b.session.drafts) (hs : x.invocation.status ≠ .timedOut)
  | idle (hb : b.phase.isCalling = false) (hx : x.phase = .waiting ∨ x.phase = .granted)
      (hlog : x.session.drafts = b.session.drafts) (hs : x.invocation.status = .pending)
  | cutting {rest : List (Nat × EventDraft)} {r : Response}
      (hx : x.phase = .calling rest (.closed t .timedOut (some r)))
      (hlog : x.session.drafts ++ rest.map Prod.snd = b.session.drafts ++
        [.response x.invocation.author r, .status x.invocation.author x.invocation.id .timedOut])
      (hs : x.invocation.status = .running)
  | cut {r : Response} (hx : x.phase = .ended)
      (hlog : x.session.drafts = b.session.drafts ++
        [.response x.invocation.author r, .status x.invocation.author x.invocation.id .timedOut])
      (hs : x.invocation.status = .timedOut)

namespace Branch.Winding

theorem move (h : b.Winding t x) (hdeadline : ctx.signals.interrupt? now = some .deadline)
    (hmove : x.Moves ctx now x') : b.Winding t x' := by
  cases h with
  | settled hb hx => exact absurd hx hmove.not_ended
  | cut hx => exact absurd hx hmove.not_ended
  | idle hb hx hlog hs =>
    have hgone : b.Winding t (x.giveUp now) := by
      refine .settled hb rfl hlog ?_
      rw [Branch.giveUp, Invocation.status_transition _ _ _ (by rw [hs]; rfl)]
      nofun
    cases hmove with
    | refused | left => exact hgone
    | granted => exact .idle hb (Or.inr rfl) hlog hs
    | began hphase hagent hcalm => cases hcalm.symm.trans hdeadline
    | failed hphase | queued hphase | added hphase | closed hphase | crashed hphase =>
      rcases hx with hx | hx <;> cases hx.symm.trans hphase
  | @cutting rest r hx hlog hs =>
    cases hmove with
    | added hphase =>
      cases hx.symm.trans hphase
      refine .cutting rfl ?_ hs
      rw [Session.drafts_append, List.append_assoc]
      exact hlog
    | closed hphase =>
      cases hx.symm.trans hphase
      refine .cut (r := r) rfl ?_ (Invocation.status_transition _ _ _ (by rw [hs]; rfl))
      rw [Invocation.author_transition, Invocation.id_transition, ← hlog]
      exact (List.append_nil _).symm
    | refused hphase | began hphase => rcases hphase with h | h <;> cases hx.symm.trans h
    | failed hphase | queued hphase | granted hphase | left hphase | crashed hphase =>
      cases hx.symm.trans hphase

/-- In the end nothing has been added, or a response and the report that its call timed out. -/
theorem cut_of_timedOut (h : b.Winding t x) (hs : x.invocation.status = .timedOut) :
    ∃ r, x.session.drafts = b.session.drafts ++
      [.response x.invocation.author r,
        .status x.invocation.author x.invocation.id .timedOut] := by
  cases h with
  | cut hx hlog => exact ⟨_, hlog⟩
  | settled hb hx hlog hs' => exact absurd hs hs'
  | idle hb hx hlog hs' | cutting hx hlog hs' => cases hs'.symm.trans hs

theorem drafts_eq (h : b.Winding t x) (hended : x.isEnded = true)
    (hs : x.invocation.status ≠ .timedOut) : x.session.drafts = b.session.drafts := by
  cases h with
  | settled hb hx hlog | idle hb hx hlog => exact hlog
  | cut hx hlog hs' => exact absurd hs' hs
  | cutting hx =>
    rw [Branch.isEnded, hx] at hended
    cases hended

theorem timedOut_of_calling (h : b.Winding t x) (hb : b.phase.isCalling = true)
    (hended : x.isEnded = true) : x.invocation.status = .timedOut := by
  cases h with
  | cut hx hlog hs => exact hs
  | settled hb' | idle hb' => cases hb.symm.trans hb'
  | cutting hx =>
    rw [Branch.isEnded, hx] at hended
    cases hended

end Branch.Winding

/-! ## From the parting on -/

namespace Fleet

variable {f g f' g' : Fleet} {registry : Registry} {workers : Nat}
  {references : List AgentReference}

theorem WaitsUntil.le_of_dueAt (h : f.WaitsUntil ctx t) (hb : b ∈ f.branches) {tick : Nat}
    (hdue : b.dueAt ctx.signals f.now = some tick) : t ≤ tick := by
  obtain ⟨i, hi⟩ := List.getElem?_of_mem hb
  exact h i tick (by rw [dueAt, hi]; exact hdue)

/-- Nobody who has ended acts again. -/
theorem Reaches.eq_of_ended (h : Reaches ctx f g)
    (hended : ∀ b ∈ f.branches, b.isEnded = true) : g = f := by
  rcases Relation.ReflTransGen.cases_head h with rfl | ⟨f', hfirst, -⟩
  · rfl
  · obtain ⟨hdue⟩ := hfirst
    unfold dueAt at hdue
    split at hdue
    · next b hb =>
      have hphase := hended b (List.mem_of_getElem? hb)
      unfold Branch.isEnded at hphase
      unfold Branch.dueAt at hdue
      cases hb' : b.phase <;> rw [hb'] at hphase hdue <;> cases hphase
      cases hdue
    · cases hdue

/-- All events of a fleet carry ticks that have come. -/
theorem Reaches.before (h : Reaches ctx (start registry workers references) f) {b : Branch}
    (hb : b ∈ f.branches) {e : Event} (he : e ∈ b.session.events) : e.Before (f.now + 1) := by
  obtain ⟨i, hi⟩ := List.getElem?_of_mem hb
  obtain ⟨r, hr⟩ := h.exists_reference hi
  have hlater {e : Event} {now tick : Nat} (hle : now ≤ tick) (he : e.Before (now + 1)) :
      e.Before (tick + 1) := by
    obtain ⟨at_, hat, hstamp⟩ := he
    exact ⟨at_, by omega, hstamp⟩
  refine h.branch (Q := fun _ _ now b => ∀ e ∈ b.session.events, e.Before (now + 1)) ?_ ?_ ?_ hr hi
    e he
  · exact fun i r _ e he => (List.not_mem_nil he).elim
  · exact fun i r now tick b hle h e he => hlater hle (h e he)
  · intro i r now b b' h hmove e he
    obtain ⟨new, hnew, hstamped⟩ := hmove.events_eq
    rw [hnew] at he
    rcases List.mem_append.mp he with he | he
    · exact h e he
    · exact ⟨now, Nat.lt_succ_self now, hstamped e he⟩

/-- Nobody times out before the deadline. -/
theorem Reaches.ne_timedOut {signals : Signals}
    (hreach : Reaches near (start registry workers references) g)
    (hsignals : signals.Postpones near.signals t) (hnow : g.now < t) (hb : b ∈ g.branches)
    (hended : b.isEnded = true) : b.invocation.status ≠ .timedOut := by
  intro hs
  obtain ⟨tick, htick, hwhy⟩ := ((hreach.standing hb).fate hended).ended.deadline_of_timedOut hs
  cases (hsignals.calm_near (Nat.lt_of_le_of_lt htick hnow)).symm.trans hwhy

namespace Parting

variable (h : Parting far near t f g)

include h

/-- Nobody can act at once any more. -/
theorem dueAt_ne (hb : b ∈ g.branches) : b.dueAt near.signals g.now ≠ some g.now :=
  fun hdue => absurd (h.near.le_of_dueAt hb hdue) (Nat.not_le.mpr h.early)

theorem exists_calling (hreach : Reaches near (start registry workers references) g)
    (hb : b ∈ g.branches) (hopen : b.isEnded = false) :
    ∃ x ∈ g.branches, x.phase.isCalling = true := by
  -- whoever waits for a slot waits for somebody who holds one
  have hholder {x : Branch} (hx : x ∈ g.branches) (hslot : x.holdsSlot = true) :
      x.phase.isCalling = true := by
    unfold Branch.holdsSlot at hslot
    cases hphase : x.phase with
    | granted => exact absurd (by rw [Branch.dueAt, hphase]) (h.dueAt_ne hx)
    | calling => rfl
    | fresh | waiting | ended =>
      rw [hphase] at hslot
      cases hslot
  cases hphase : b.phase with
  | fresh | granted => exact absurd (by rw [Branch.dueAt, hphase]) (h.dueAt_ne hb)
  | waiting =>
    obtain ⟨x, hx, hslot⟩ := hreach.exists_holdsSlot hb (Branch.isWaiting_iff.mpr hphase)
    exact ⟨x, hx, hholder hx hslot⟩
  | calling => exact ⟨b, hb, by rw [hphase]; rfl⟩
  | ended =>
    rw [Branch.isEnded, hphase] at hopen
    cases hopen

theorem winding (hctx : far.Postpones near t)
    (hreach : Reaches near (start registry workers references) g) (hb : b ∈ g.branches) :
    b.Winding t b := by
  have hstanding := hreach.standing hb
  have hearly : g.now < t := h.early
  obtain ⟨i, hi⟩ := List.getElem?_of_mem hb
  obtain ⟨p, -, hp⟩ := h.twin.branches i b hi
  cases hphase : b.phase with
  | fresh | granted => exact absurd (by rw [Branch.dueAt, hphase]) (h.dueAt_ne hb)
  | waiting =>
    have hpending := (hstanding.untouched (Or.inr (Or.inl hphase))).1.2
    exact .idle (by rw [hphase]; rfl) (Or.inl hphase) rfl hpending
  | ended =>
    have hended : b.isEnded = true := by rw [Branch.isEnded, hphase]
    exact .settled (by rw [hphase]; rfl) hphase rfl
      (hreach.ne_timedOut hctx.signals h.early hb hended)
  | calling rest close =>
    obtain ⟨agent, began, hcalls⟩ := hstanding.calls hphase
    have hnext {next : Nat × EventDraft} {rest : List (Nat × EventDraft)} {close : Close}
        (hphase : b.phase = .calling (next :: rest) close) : t ≤ next.1 := by
      have hle := h.near.le_of_dueAt hb (Branch.dueAt_calling_cons hphase)
      omega
    rw [hphase] at hp
    cases hp with
    | same hp => cases hp
    | calling hcut =>
      cases hcut with
      | untouched hdrafts hclose =>
        cases rest with
        | cons next rest =>
          have hlt := hdrafts next List.mem_cons_self
          exact absurd (hnext hphase) (Nat.not_le.mpr hlt)
        | nil =>
          obtain ⟨tick, htick, hclosed⟩ := hclose
          have hle : t ≤ max tick g.now :=
            h.near.le_of_dueAt hb (by rw [Branch.dueAt_calling_nil hphase, hclosed]; rfl)
          omega
      | @cut kept more r hwhole hkept =>
        -- all that was to come before the deadline has come
        cases kept with
        | cons next kept =>
          exact absurd (hnext hphase) (Nat.not_le.mpr (hkept next List.mem_cons_self))
        | nil => exact .cutting hphase rfl hcalls.running

/-- What becomes of a branch under the two deadlines, beside how it stood at the parting. -/
theorem exists_common (hctx : far.Postpones near t)
    (hreach : Reaches near (start registry workers references) g) (horderly : f.Orderly 0)
    (hafter : Reaches far f f') (hafter' : Reaches near g g') {i : Nat} {x y : Branch}
    (hx : g'.branches[i]? = some x) (hy : f'.branches[i]? = some y) :
    ∃ b, g.branches[i]? = some b ∧ b.Winding t x ∧ b.session.GrownFrom t x.session ∧
      b.session.GrownFrom t y.session ∧ ∀ e ∈ b.session.events, e.Before t := by
  have horderly' := hreach.orderly (orderly_start registry workers references)
  have hnear := h.near.each
    (R := fun i x => ∃ b, g.branches[i]? = some b ∧ b.Winding t x ∧
      b.session.GrownFrom t x.session)
    (fun i now x x' hnow ⟨b, hb, hwinding, hgrown⟩ hmove =>
      ⟨b, hb, hwinding.move (hctx.signals.interrupt?_near hnow) hmove,
        hgrown.trans (hmove.grownFrom hnow)⟩)
    hafter' horderly'
    (fun i b hb => ⟨b, hb, h.winding hctx hreach (List.mem_of_getElem? hb), .refl t b.session⟩)
  have hfar := h.far.each
    (R := fun i y => ∀ b, g.branches[i]? = some b → b.session.GrownFrom t y.session)
    (fun i now y y' hnow hgrown hmove b hb => (hgrown b hb).trans (hmove.grownFrom hnow))
    hafter horderly
    (fun i y hy b hb => by
      obtain ⟨p, hf, -⟩ := h.twin.branches i b hb
      cases hy.symm.trans hf
      exact .refl t b.session)
  obtain ⟨b, hb, hwinding, hgrown⟩ := hnear i x hx
  refine ⟨b, hb, hwinding, hgrown, hfar i y hy b hb, fun e he => ?_⟩
  obtain ⟨tick, htick, hstamp⟩ := hreach.before (List.mem_of_getElem? hb) he
  exact ⟨tick, Nat.lt_of_lt_of_le htick h.early, hstamp⟩

/-- If somebody has not ended at the parting, then somebody is cut off. -/
theorem exists_timedOut (hctx : far.Postpones near t)
    (hreach : Reaches near (start registry workers references) g) (horderly : f.Orderly 0)
    (hafter : Reaches far f f') (hafter' : Reaches near g g')
    (hended : ∀ b ∈ g'.branches, b.isEnded = true) (hopen : ∃ b ∈ g.branches, b.isEnded = false) :
    ∃ b ∈ g'.branches, b.invocation.status = .timedOut := by
  have horderly' := hreach.orderly (orderly_start registry workers references)
  obtain ⟨b, hb, hb'⟩ := hopen
  obtain ⟨x, hx, hcalling⟩ := h.exists_calling hreach hb hb'
  -- its call had begun at the parting, so it goes on to the report that it has timed out
  obtain ⟨i, hi, rfl⟩ := List.getElem_of_mem hx
  have hnear : i < g'.branches.length := by
    rw [hafter'.length_eq horderly']
    exact hi
  have hfar : i < f'.branches.length := by
    rw [hafter.length_eq horderly, h.twin.length]
    exact hi
  obtain ⟨b, hb, hwinding, -⟩ := h.exists_common hctx hreach horderly hafter hafter'
    (List.getElem?_eq_getElem hnear) (List.getElem?_eq_getElem hfar)
  cases (List.getElem?_eq_getElem hi).symm.trans hb
  have hmem := List.getElem_mem hnear
  exact ⟨_, hmem, hwinding.timedOut_of_calling hcalling (hended _ hmem)⟩

end Parting

end Fleet

end Run

end Ensemble
