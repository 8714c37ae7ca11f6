import Ensemble.Proofs.Call.Closing
import Ensemble.Proofs.Run.Feed
import Ensemble.Proofs.Run.History

/-!
How the record of a branch and its log go together.  Every log that is not empty ends with the report
of the status that is recorded, and a failure is explained in it, unless the branch crashed: then
the log breaks off and its record is that of an invocation which no event mentions.
-/

namespace Ensemble

/-- A log that is closed by an invocation: it reports on nobody else, its last event is the report
of the final status, and it shows the error if the invocation failed. -/
structure Session.ClosedBy (s : Session) (v : Invocation) : Prop where
  reports : ∀ d ∈ s.drafts, ∀ id status, d.payload = .status id status → id = v.id
  last : s.drafts.getLast? = some (.status v.author v.id v.status)
  terminal : v.status.isTerminal = true
  failed : v.status = .failed → ∃ d ∈ s.drafts, d.kind = .error ∧ d.isPartial = false

/-! ## Calls that close -/

theorem Block.reports {author id : String} {s : Status} {r : Option Response}
    {ds : List EventDraft} (h : Block author id s r ds) :
    ∀ d ∈ ds, ∀ i t, d.payload = .status i t → i = id := by
  intro d hd i t hpayload
  cases h with
  | answered =>
    simp only [List.cons_append, List.mem_cons, List.mem_append, List.mem_map, List.not_mem_nil,
      or_false] at hd
    rcases hd with rfl | ⟨x, -, rfl⟩ | rfl | rfl <;> cases hpayload <;> rfl
  | failed =>
    simp only [List.mem_cons, List.not_mem_nil, or_false] at hd
    rcases hd with rfl | rfl | rfl <;> cases hpayload <;> rfl

/-- A call that fails shows an error. -/
theorem Call.exists_error_of_failed {agent : Agent} {signals : Signals} {stream : Bool}
    {author id : String} {now tick : Nat} {r : Option Response}
    (hclose : (trace agent signals stream author id now).close = .closed tick .failed r) :
    ∃ message, EventDraft.error author message ∈
      (trace agent signals stream author id now).drafts.map Prod.snd := by
  have htraceOf {h : Hearing} {called : Bool}
      (hclose : (traceOf author id now h called).close = .closed tick .failed r) :
      ∃ message, EventDraft.error author message ∈
        (traceOf author id now h called).drafts.map Prod.snd := by
    obtain ⟨arrived, e⟩ := h
    -- neither a response nor an interrupt makes a call fail
    cases e with
    | ended at_ how =>
      simp only [traceOf, ending, closing, Close.closed.injEq] at hclose
      obtain ⟨-, hfailed, -⟩ := hclose
      rcases finalDraft_cases author arrived how with ⟨termination, hfinal⟩ | ⟨message, hfinal, -⟩
      · rw [hfinal, statusOf_response] at hfailed
        cases hfailed
      · refine ⟨message, ?_⟩
        simp only [traceOf, ending, drafts_closing, hfinal]
        exact List.mem_append_right _ List.mem_cons_self
    | interrupted at_ why =>
      simp only [traceOf, ending, closing, Close.closed.injEq] at hclose
      cases why <;> cases hclose.2.1
    | never => cases hclose
  unfold trace at hclose ⊢
  cases hwhy : signals.interrupt? now with
  | some why =>
    rw [hwhy] at hclose
    exact htraceOf hclose
  | none =>
    rw [hwhy] at hclose
    cases agent with
    | replay replay => exact htraceOf hclose
    | crashing => cases hclose

namespace Run

/-! ## Branches that have ended -/

namespace Branch

variable {ctx : Context} {now : Nat} {b : Branch}

/-- A branch that has left anything in its log has closed it if and only if it did not crash. -/
theorem Fate.closedBy_own_iff (h : b.Fate ctx now) (hwritten : b.session.drafts ≠ []) :
    b.session.ClosedBy b.invocation ↔ b.agent ≠ .ok .crashing := by
  cases h with
  | unresolved hagent hstatus hlog =>
    refine iff_of_true ?_ (by rw [hagent]; nofun)
    constructor
    case reports =>
      intro d hd id status hpayload
      rw [hlog] at hd
      rcases List.mem_pair.mp hd with rfl | rfl <;> cases hpayload
      rfl
    case last => rw [hlog, hstatus]; rfl
    case terminal => rw [hstatus]; rfl
    case failed =>
      intro _
      rw [hlog]
      exact ⟨_, List.mem_cons_self, rfl, rfl⟩
  | gaveUp hagent hwhy htick hstatus hstarted hfinished hlog => exact absurd hlog hwritten
  | @closed agent start tick s r hagent hcalm hclose htick hstatus hstarted hlog =>
    have hlive : agent ≠ .crashing := by
      rintro rfl
      rw [Step.trace, Call.trace, hcalm] at hclose
      cases hclose
    have hblock : Block b.invocation.author b.invocation.id s r b.session.drafts := by
      rw [hlog]
      exact Call.trace_block hlive hclose
    refine iff_of_true ?_ (by rw [hagent]; exact fun heq => hlive (Except.ok.inj heq))
    constructor
    case reports => exact hblock.reports
    case last =>
      obtain ⟨before, d, hdrafts, -, -⟩ := hblock.eq_append
      rw [hdrafts, hstatus, List.append_cons]
      exact List.getLast?_concat
    case terminal => exact hstatus ▸ hblock.isTerminal
    case failed =>
      intro hfailed
      rw [hstatus] at hfailed
      subst hfailed
      obtain ⟨message, hmessage⟩ := Call.exists_error_of_failed hclose
      rw [hlog]
      exact ⟨_, hmessage, rfl, rfl⟩
  | crashed hagent hstatus hlog =>
    -- the log ends with the report that the branch is running
    refine iff_of_false ?_ (fun hne => hne hagent)
    intro hclosed
    have hlast := hclosed.last
    rw [hlog, hstatus] at hlast
    cases hlast

end Branch

variable {ctx : Context} {registry : Registry} {workers : Nat} {references : List AgentReference}
  {o : Outcome}

/-- The session that an invocation names is that of its own branch. -/
theorem MayEndWith.exists_branch_of_mem (h : MayEndWith ctx registry workers references o)
    {v : Invocation} {s : Session} (hv : v ∈ o.invocations) (hs : s ∈ o.sessions)
    (hid : s.id = v.sessionId) :
    ∃ b : Branch, s = b.session ∧ v = b.invocation ∧ b.agent = registry.resolve v.agent ∧
      b.Fate ctx o.tick := by
  obtain ⟨f, hreach, hended, rfl⟩ := h
  obtain ⟨b, hb, rfl⟩ := List.mem_map.mp hv
  obtain ⟨b', hb', rfl⟩ := List.mem_map.mp hs
  cases hreach.eq_of_sessionId hb hb' hid.symm
  obtain ⟨i, r, -, -, hfor⟩ := hreach.exists_isFor hb
  refine ⟨b, rfl, rfl, ?_, hfor.standing.fate (List.all_eq_true.mp hended b hb)⟩
  rw [hfor.agent, hfor.reference]

/-- In whatever order the branches of a run act and whatever interrupts them, exactly those that
began and crashed leave a log that their record does not close. -/
theorem closedBy_iff (h : MayEndWith ctx registry workers references o) {v : Invocation}
    {s : Session} (hv : v ∈ o.invocations) (hs : s ∈ o.sessions) (hid : s.id = v.sessionId)
    (hwritten : s.events ≠ []) : s.ClosedBy v ↔ registry.resolve v.agent ≠ .ok .crashing := by
  obtain ⟨b, rfl, rfl, hagent, hfate⟩ := h.exists_branch_of_mem hv hs hid
  rw [← hagent]
  refine hfate.closedBy_own_iff ?_
  rw [Session.drafts, ne_eq, List.map_eq_nil_iff]
  exact hwritten

/-- Beside a crash, an agent whose answer breaks off before it has shown anything: its failure is
explained in its log. -/
theorem closedBy_iff_beside_crash :
    let ctx : Context := { task := "t" }
    let registry : Registry :=
      { agents := [("a", .crashing), ("b", .replay { tail := .transportError "reset" })] }
    let references : List AgentReference := [{ name := "a" }, { name := "b" }]
    let fleet := Fleet.start registry 1 references
    let o := (Fleet.advance ctx fleet.work fleet).outcome ctx.signals
    MayEndWith ctx registry 1 references o ∧ ∃ v ∈ o.invocations, ∃ s ∈ o.sessions,
      s.id = v.sessionId ∧ s.events ≠ [] ∧ registry.resolve v.agent ≠ .ok .crashing ∧
        v.status = .failed ∧ s.ClosedBy v := by
  intro ctx registry references fleet o
  have hended : (Fleet.advance ctx fleet.work fleet).branches.all Branch.isEnded = true := by
    decide +kernel
  have hmay : MayEndWith ctx registry 1 references o :=
    mayEndWith_of_sideBySide (sideBySide_of_ended hended)
  obtain ⟨b, hs, hv, hb, -⟩ := hmay.exists_branch (i := 1) rfl
  have hv := List.mem_of_getElem? hv
  have hs := List.mem_of_getElem? hs
  have hfailed : ∀ v ∈ o.invocations, v.status = .failed := by decide +kernel
  have hwritten : ∀ s ∈ o.sessions, s.events ≠ [] := by decide +kernel
  have hlive : registry.resolve b.invocation.agent ≠ .ok .crashing := by
    rw [hb.reference]
    decide +kernel
  exact ⟨hmay, _, hv, _, hs, hb.session.symm, hwritten _ hs, hlive, hfailed _ hv,
    (closedBy_iff hmay hv hs hb.session.symm (hwritten _ hs)).mpr hlive⟩

/-- The log of a crash is left open: it says of an invocation that is not on record that it is
running, while the record says that the branch has failed. -/
theorem not_closedBy_crash :
    let references : List AgentReference := [{ name := "a" }, { name := "b" }]
    let spec : Workflow.Spec :=
      { description := none, timeout := none, composition := .parallel 2,
        subAgents := references }
    let e : Engine :=
      { registry := { agents := [("a", .crashing), ("b", .replay (.ofText "ok"))] } }
    let ctx : Context := { task := "t" }
    let fleet := Fleet.start e.registry 2 references
    let o := (Fleet.advance ctx fleet.work fleet).outcome ctx.signals
    ofSpec e ctx spec = .finished o ∧
      o.sessions[0]?.map Session.drafts = some [.status "a" "inv-1" .running] ∧
      o.invocations[0]?.map (fun v => (v.id, v.status)) = some ("inv-3", .failed) ∧
      ∃ v ∈ o.invocations, ∃ s ∈ o.sessions, s.id = v.sessionId ∧ s.events ≠ [] ∧
        ¬ s.ClosedBy v := by
  intro references spec e ctx fleet o
  have hended : (Fleet.advance ctx fleet.work fleet).branches.all Branch.isEnded = true := by
    decide +kernel
  have hside : sideBySide ctx e.registry 2 references = .finished o := sideBySide_of_ended hended
  obtain ⟨b, hs, hv, hb, hfate⟩ := (mayEndWith_of_sideBySide hside).exists_branch (i := 0) rfl
  have hv := List.mem_of_getElem? hv
  have hs := List.mem_of_getElem? hs
  have hwritten : ∀ s ∈ o.sessions, s.events ≠ [] := by decide +kernel
  have hcrash : b.agent = .ok .crashing := hb.agent.trans (by decide +kernel)
  have hopen : ¬ b.session.ClosedBy b.invocation := by
    rw [hfate.closedBy_own_iff fun hempty => hwritten _ hs (List.map_eq_nil_iff.mp hempty)]
    exact fun hne => hne hcrash
  exact ⟨hside, by decide +kernel, by decide +kernel, _, hv, _, hs, hb.session.symm,
    hwritten _ hs, hopen⟩

end Run

end Ensemble
