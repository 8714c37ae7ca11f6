import Ensemble.Proofs.Call.Modes
import Ensemble.Proofs.Run.History
import Ensemble.Proofs.Run.Standing

/-!
Branches do not influence each other.  A branch that nothing interrupts leaves behind what its own
agent makes of the call, whichever branches run beside it, however many slots they share and in
whatever order they act.
-/

namespace Ensemble

/-! ## What is left when names and times are taken away -/

/-- A draft without the name of the invocation that it reports on. -/
def EventDraft.unnamed (d : EventDraft) : EventDraft :=
  match d.payload with
  | .status _ s => { d with payload := .status "" s }
  | _ => d

@[simp] theorem EventDraft.unnamed_status (author id : String) (s : Status) :
    (status author id s).unnamed = status author "" s := rfl

/-- The numbers and the drafts of a session, without times and names of invocations. -/
def Session.view (s : Session) : List (Nat × EventDraft) :=
  s.events.map fun e => (e.sequence, e.draft.unnamed)

theorem Session.Numbered.view_eq {s : Session} (h : s.Numbered) :
    s.view = (List.range' 1 (s.drafts.map EventDraft.unnamed).length).zip
      (s.drafts.map EventDraft.unnamed) := by
  have hlength : (s.drafts.map EventDraft.unnamed).length = s.length := by
    rw [List.length_map, drafts, List.length_map, length]
  rw [hlength, ← h, drafts, List.map_map, List.zip_map', view]
  rfl

/-- The drafts and the status of a call, without times and the name of the invocation. -/
def Trace.view (t : Trace) : List EventDraft × Option Status :=
  ((t.drafts.map Prod.snd).map EventDraft.unnamed, t.close.status?)

def HearingEnd.untimed : HearingEnd → HearingEnd
  | .ended _ how => .ended 0 how
  | .interrupted _ why => .interrupted 0 why
  | .never => .never

theorem Call.view_traceOf {author id id' : String} {now now' : Nat} {h h' : Hearing}
    {called called' : Bool} (harrived : h.arrived.map Prod.snd = h'.arrived.map Prod.snd)
    (hending : h.ending.untimed = h'.ending.untimed) :
    (traceOf author id now h called).view = (traceOf author id' now' h' called').view := by
  obtain ⟨arrived, e⟩ := h
  obtain ⟨arrived', e'⟩ := h'
  have hfinal (how : StreamEnd) : finalDraft author arrived how = finalDraft author arrived' how :=
    congrArg (fun ds => (({} : Assembly).pushAll ds).finish author how) harrived
  cases e <;> cases e' <;> cases hending
  case never =>
    simp only [Trace.view, traceOf, ending, List.append_nil, List.map_cons, drafts_partialDrafts,
      harrived]
    simp [Close.status?]
  all_goals
    simp only [Trace.view, traceOf, ending, drafts_closing, harrived, hfinal]
    simp [closing, Close.status?]

/-! ## Calls that nothing interrupts -/

theorem Tail.untimed_ending_calm (t : Tail) (now now' : Nat) :
    (t.ending {} now).untimed = (t.ending {} now').untimed := by
  cases t <;> rfl

/-- What is heard of an agent without signals does not depend on when it is called. -/
theorem Replay.call_calm (r : Replay) (stream : Bool) (now now' : Nat) :
    (r.call {} stream now).arrived.map Prod.snd = (r.call {} stream now').arrived.map Prod.snd ∧
      (r.call {} stream now).ending.untimed = (r.call {} stream now').ending.untimed := by
  unfold call
  cases r.rejection with
  | some e => exact ⟨rfl, rfl⟩
  | none =>
    dsimp only
    rw [arrived_listen_calm, arrived_listen_calm, ending_listen_calm, ending_listen_calm]
    exact ⟨rfl, r.tail.untimed_ending_calm _ _⟩

/-- Agents that nobody can tell apart by calling them. -/
inductive Agent.Alike : Agent → Agent → Prop
  | replay {r r' : Replay}
      (hcall : ∀ signals stream now, r.call signals stream now = r'.call signals stream now) :
      Alike (.replay r) (.replay r')
  | crashing : Alike .crashing .crashing

/-- A reference names agents that are alike in two registries, or none in either. -/
inductive Registry.Agree (g g' : Registry) (r : AgentReference) : Prop
  | named {a a' : Agent} (hagent : g.resolve r = .ok a) (hagent' : g'.resolve r = .ok a')
      (halike : a.Alike a')
  | unresolved {e e' : NotFound} (hnone : g.resolve r = .error e)
      (hnone' : g'.resolve r = .error e')

theorem Registry.eq_of_resolve_error {g : Registry} {r : AgentReference} {e : NotFound}
    (h : g.resolve r = .error e) : e = ⟨r.qualifiedName⟩ := by
  unfold resolve at h
  split at h
  · cases h
  · cases h
    rfl

namespace Run

/-- What the branch of an author leaves behind when nothing interrupts: its drafts and its status,
without times and the name of the invocation. -/
def Branch.legacy (stream : Bool) (author : String) :
    Except Registry.NotFound Agent → List EventDraft × Option Status
  | .ok (.replay r) => (Call.trace (.replay r) {} stream author "" 0).view
  | .ok .crashing => ([.status author "" .running], some .failed)
  | .error e => ([.error author e.message, .status author "" .failed], some .failed)

theorem Branch.legacy_eq_of_agree {g g' : Registry} {r : AgentReference} (h : g.Agree g' r)
    (stream : Bool) (author : String) :
    legacy stream author (g.resolve r) = legacy stream author (g'.resolve r) := by
  cases h with
  | named hagent hagent' halike =>
    rw [hagent, hagent']
    cases halike with
    | crashing => rfl
    | @replay x x' hcall =>
      have htrace (y : Replay) : Call.trace (.replay y) {} stream author "" 0 =
        Call.traceOf author "" 0 (y.call {} stream 0) true := rfl
      rw [legacy, legacy, htrace, htrace, hcall]
  | unresolved hnone hnone' =>
    rw [hnone, hnone', Registry.eq_of_resolve_error hnone, Registry.eq_of_resolve_error hnone']

variable {ctx : Context} {now : Nat}

/-- A branch that has ended without any signal has left its legacy. -/
theorem Branch.Fate.legacy_eq {b : Branch} (h : b.Fate ctx now) (hcalm : ctx.signals = {}) :
    (b.session.drafts.map EventDraft.unnamed, some b.invocation.status) =
      legacy ctx.stream b.invocation.author b.agent := by
  cases h with
  | unresolved hagent hstatus hlog =>
    rw [hagent, hlog, hstatus]
    rfl
  | gaveUp hagent hwhy =>
    rw [hcalm] at hwhy
    cases hwhy
  | @closed agent start tick s response hagent _ hclose _ hstatus _ hlog =>
    rw [hagent, hlog, hstatus]
    unfold Step.trace at hclose ⊢
    rw [hcalm] at hclose ⊢
    cases agent with
    | crashing => cases hclose
    | replay r =>
      obtain ⟨harrived, hending⟩ := r.call_calm ctx.stream start 0
      have hview : (Call.trace (.replay r) {} ctx.stream b.invocation.author b.invocation.id
          start).view = legacy ctx.stream b.invocation.author (.ok (.replay r)) :=
        Call.view_traceOf harrived hending
      rw [← hview, Trace.view, hclose]
      rfl
  | crashed hagent hstatus hlog =>
    rw [hagent, hlog, hstatus]
    rfl

/-- Two runs of one task in one mode, without timeout and cancellation, leave the same log and the
same status in the branches of one reference, if it means the same in both. -/
theorem view_eq_of_agree (hcalm : ctx.signals = {}) {registry registry' : Registry}
    {workers workers' : Nat} {references references' : List AgentReference} {o o' : Outcome}
    (hrun : MayEndWith ctx registry workers references o)
    (hrun' : MayEndWith ctx registry' workers' references' o') {i j : Nat} {r : AgentReference}
    (hi : references[i]? = some r) (hj : references'[j]? = some r)
    (hagree : registry.Agree registry' r) :
    ∃ s v s' v', o.sessions[i]? = some s ∧ o.invocations[i]? = some v ∧
      o'.sessions[j]? = some s' ∧ o'.invocations[j]? = some v' ∧
        s.view = s'.view ∧ v.status = v'.status := by
  obtain ⟨b, hs, hv, hb, hfate⟩ := hrun.exists_branch hi
  obtain ⟨b', hs', hv', hb', hfate'⟩ := hrun'.exists_branch hj
  refine ⟨_, _, _, _, hs, hv, hs', hv', ?_⟩
  have hlegacy := hfate.legacy_eq hcalm
  have hlegacy' := hfate'.legacy_eq hcalm
  rw [hb.agent, Invocation.author, hb.reference] at hlegacy
  rw [hb'.agent, Invocation.author, hb'.reference,
    ← Branch.legacy_eq_of_agree hagree ctx.stream r.qualifiedName, ← hlegacy] at hlegacy'
  obtain ⟨hdrafts, hstatus⟩ := Prod.mk.inj hlegacy'
  refine ⟨?_, (Option.some.inj hstatus).symm⟩
  rw [hb.numbered.view_eq, hb'.numbered.view_eq, hdrafts]

/-- An agent whose answer breaks off, in the queue for one slot behind a crash and a reference to
nobody, and with a slot to itself beside another agent. -/
theorem view_eq_behind_crash :
    let ctx : Context := { task := "t" }
    let shy : Agent := .replay
      { script := [.ofText "hi", .ofText "there"], delay := 2, tail := .transportError "reset" }
    let registry : Registry := { agents := [("a", shy), ("b", .crashing)] }
    let registry' : Registry := { agents := [("a", shy), ("c", .replay (.ofText "ok"))] }
    let r : AgentReference := { name := "a" }
    let references : List AgentReference := [{ name := "b" }, { name := "x" }, r]
    let references' : List AgentReference := [r, { name := "c" }]
    let fleet := Fleet.start registry 1 references
    let fleet' := Fleet.start registry' 4 references'
    let o := (Fleet.advance ctx fleet.work fleet).outcome ctx.signals
    let o' := (Fleet.advance ctx fleet'.work fleet').outcome ctx.signals
    ctx.signals = {} ∧ MayEndWith ctx registry 1 references o ∧
      MayEndWith ctx registry' 4 references' o' ∧ references[2]? = some r ∧
        references'[0]? = some r ∧ registry.Agree registry' r ∧
          ∃ s v s' v', o.sessions[2]? = some s ∧ o.invocations[2]? = some v ∧
            o'.sessions[0]? = some s' ∧ o'.invocations[0]? = some v' ∧
              s.view = s'.view ∧ v.status = v'.status := by
  intro ctx shy registry registry' r references references' fleet fleet' o o'
  have hended : (Fleet.advance ctx fleet.work fleet).branches.all Branch.isEnded = true := by
    decide +kernel
  have hended' : (Fleet.advance ctx fleet'.work fleet').branches.all Branch.isEnded = true := by
    decide +kernel
  have hrun := mayEndWith_of_sideBySide (sideBySide_of_ended hended)
  have hrun' := mayEndWith_of_sideBySide (sideBySide_of_ended hended')
  have hagree : registry.Agree registry' r := .named rfl rfl (.replay fun _ _ _ => rfl)
  exact ⟨rfl, hrun, hrun', rfl, rfl, hagree, view_eq_of_agree rfl hrun hrun' rfl rfl hagree⟩

end Run

end Ensemble
