import Ensemble.Proofs.Response.Whole
import Ensemble.Proofs.Session.Log
import Ensemble.Run.Step

/-!
Deltas or whole answers.  An agent may be asked for the deltas of its script one by one or for all
of them in one; when nothing interrupts the call, both ways end in the same status and the same
final event exactly when the collapse loses neither the finish reason nor the usage.
-/

namespace Ensemble

/-- How a stream ends after a script, if it ends. -/
def Tail.streamEnd? : Tail → Option StreamEnd
  | .complete => some .completed
  | .transportError message => some (.transportError (AgentError.transport message).message)
  | .hang => none

def Close.status? : Close → Option Status
  | .closed _ status _ => some status
  | _ => none

/-- The final event of a step: the last one before its closing status. -/
def Step.final? (s : Step) : Option EventDraft :=
  s.session.drafts.dropLast.getLast?

/-! ## Calls that nothing interrupts -/

namespace Replay

variable (r : Replay)

theorem arrived_listen_calm (now : Nat) (ds : List Delta) :
    (r.listen {} now ds).arrived.map Prod.snd = ds := by
  induction ds generalizing now with
  | nil => rfl
  | cons d ds ih =>
    show d :: (r.listen {} (now + r.delay) ds).arrived.map Prod.snd = d :: ds
    rw [ih]

theorem ending_listen_calm (now : Nat) (ds : List Delta) :
    (r.listen {} now ds).ending = r.tail.ending {} (now + r.delay * ds.length) := by
  induction ds generalizing now with
  | nil => rfl
  | cons d ds ih =>
    show (r.listen {} (now + r.delay) ds).ending = _
    rw [ih, List.length_cons, Nat.mul_succ, Nat.add_assoc, Nat.add_comm r.delay]

end Replay

theorem Tail.exists_streamEnd {t : Tail} (h : t ≠ .hang) : ∃ how, t.streamEnd? = some how := by
  cases t with
  | complete => exact ⟨_, rfl⟩
  | transportError message => exact ⟨_, rfl⟩
  | hang => exact absurd rfl h

theorem Tail.breaks_iff {t : Tail} {how : StreamEnd} (h : t.streamEnd? = some how) :
    (∃ message, how = .transportError message) ↔ t ≠ .complete := by
  cases t with
  | complete => simp [← Option.some.inj h]
  | transportError message => simp [← Option.some.inj h]
  | hang => cases h

theorem Tail.ending_calm {t : Tail} {how : StreamEnd} (h : t.streamEnd? = some how) (now : Nat) :
    t.ending {} now = .ended now how := by
  cases t with
  | complete => rw [ending, ← Option.some.inj h]
  | transportError message => rw [ending, ← Option.some.inj h]
  | hang => cases h

/-- A call whose stream ends closes with what arrived until then. -/
theorem Step.take_heard (ctx : Run.Context) (r : Replay) (i : Invocation) (s : Session) (now : Nat)
    {tick : Nat} {how : StreamEnd} (hcalm : ctx.signals.interrupt? now = none)
    (hending : (r.call ctx.signals ctx.stream now).ending = .ended tick how) :
    let final := Call.finalDraft i.author (r.call ctx.signals ctx.stream now).arrived how
    let step := take ctx (.replay r) i s now
    step.close = .closed tick (Call.statusOf final) (Call.responseOf final) ∧
      step.final? = some final := by
  intro final step
  let h := r.call ctx.signals ctx.stream now
  have htrace : trace ctx (.replay r) i now = Call.traceOf i.author i.id now h true := by
    rw [trace, Call.trace, hcalm]
  have hdrafts : (trace ctx (.replay r) i now).drafts =
      ((now, .status i.author i.id .running) :: Call.partialDrafts i.author h.arrived) ++
        [(tick, final), (tick, .status i.author i.id (Call.statusOf final))] := by
    rw [htrace, Call.traceOf, Call.ending, hending]
    rfl
  have hclose : (trace ctx (.replay r) i now).close =
      .closed tick (Call.statusOf final) (Call.responseOf final) := by
    rw [htrace, Call.traceOf, Call.ending, hending]
    rfl
  have hlast (ds : List EventDraft) (d e : EventDraft) :
      (ds ++ [d, e]).dropLast.getLast? = some d := by
    rw [List.append_cons, List.dropLast_concat, List.getLast?_concat]
  refine ⟨hclose, ?_⟩
  show (s.appendAll (trace ctx (.replay r) i now).drafts).drafts.dropLast.getLast? = _
  rw [Session.drafts_appendAll, hdrafts, List.map_append, ← List.append_assoc]
  exact hlast _ _ _

theorem Step.take_ended (ctx : Run.Context) (r : Replay) (i : Invocation) (s : Session) (now : Nat)
    {tick : Nat} {how : StreamEnd} (hcalm : ctx.signals = {})
    (hending : (r.call {} ctx.stream now).ending = .ended tick how) :
    let final := Call.finalDraft i.author (r.call {} ctx.stream now).arrived how
    let step := take ctx (.replay r) i s now
    step.close.status? = some (Call.statusOf final) ∧ step.final? = some final := by
  rw [← hcalm] at hending
  have hopen : ctx.signals.interrupt? now = none := by
    rw [hcalm]
    rfl
  obtain ⟨hclose, hfinal⟩ := take_heard ctx r i s now hopen hending
  rw [hcalm] at hclose hfinal
  exact ⟨congrArg Close.status? hclose, hfinal⟩

theorem Step.take_calm (ctx : Run.Context) (r : Replay) (i : Invocation) (s : Session) (now : Nat)
    {how : StreamEnd} (hcalm : ctx.signals = {}) (hopen : r.rejection = none)
    (hend : r.tail.streamEnd? = some how) :
    let final := (Assembly.ofDeltas (r.deltas ctx.stream)).finish i.author how
    let step := take ctx (.replay r) i s now
    step.close.status? = some (Call.statusOf final) ∧ step.final? = some final := by
  -- nothing interrupts, so every delta arrives and the tail ends the stream
  have hcall : r.call {} ctx.stream now = r.listen {} now (r.deltas ctx.stream) := by
    rw [Replay.call, hopen]
  have hending : (r.call {} ctx.stream now).ending =
      .ended (now + r.delay * (r.deltas ctx.stream).length) how := by
    rw [hcall, Replay.ending_listen_calm, Tail.ending_calm hend]
  have hended := take_ended ctx r i s now hcalm hending
  rw [hcall, Call.finalDraft, Replay.arrived_listen_calm] at hended
  exact hended

theorem Step.agree_iff {live whole : Step} {a b : EventDraft}
    (hlive : live.close.status? = some (Call.statusOf a) ∧ live.final? = some a)
    (hwhole : whole.close.status? = some (Call.statusOf b) ∧ whole.final? = some b) :
    live.close.status?.isSome ∧ whole.close.status?.isSome ∧
      ((live.close.status? = whole.close.status? ∧ live.final? = whole.final?) ↔ a = b) := by
  rw [hlive.1, hlive.2, hwhole.1, hwhole.2, Option.some.injEq, Option.some.injEq]
  refine ⟨rfl, rfl, ?_⟩
  constructor
  · intro h
    exact h.2
  · intro h
    rw [h]
    exact ⟨rfl, rfl⟩

/-- Both modes end alike exactly when the agent refuses the call, the stream breaks before any
output, or the finish reason and the usage survive the collapse. -/
theorem Step.modes_agree_iff (task : String) (r : Replay) (i : Invocation) (s : Session) (now : Nat)
    (htail : r.tail ≠ .hang) :
    let live := take { task, stream := true } (.replay r) i s now
    let whole := take { task, stream := false } (.replay r) i s now
    live.close.status?.isSome ∧ whole.close.status?.isSome ∧
      ((live.close.status? = whole.close.status? ∧ live.final? = whole.final?) ↔
        r.rejection ≠ none ∨ (r.tail ≠ .complete ∧ r.script.any Delta.bringsOutput = false) ∨
          (Answer.KeepsReason r.script ∧ Answer.KeepsUsage r.script)) := by
  intro live whole
  cases hopen : r.rejection with
  | some e =>
    -- the refusal is all that either mode hears
    have hcall (stream : Bool) :
        r.call {} stream now = ⟨[], .ended now (.transportError e.message)⟩ := by
      rw [Replay.call, hopen]
    have hending (stream : Bool) :
        (r.call {} stream now).ending = .ended now (.transportError e.message) := by
      rw [hcall]
    have hlive := take_ended { task, stream := true } r i s now rfl (hending true)
    have hwhole := take_ended { task, stream := false } r i s now rfl (hending false)
    rw [hcall] at hlive hwhole
    obtain ⟨hliveClosed, hwholeClosed, hiff⟩ := agree_iff hlive hwhole
    refine ⟨hliveClosed, hwholeClosed, hiff.trans ?_⟩
    simp
  | none =>
    -- the deltas of the script close one call, their collapse the other
    obtain ⟨how, hhow⟩ := Tail.exists_streamEnd htail
    have hlive := take_calm { task, stream := true } r i s now rfl hopen hhow
    have hwhole := take_calm { task, stream := false } r i s now rfl hopen hhow
    obtain ⟨hliveClosed, hwholeClosed, hiff⟩ := agree_iff hlive hwhole
    refine ⟨hliveClosed, hwholeClosed, hiff.trans (eq_comm.trans ?_)⟩
    have hcollapse := Assembly.finish_whole_iff i.author r.script how
    rw [Tail.breaks_iff hhow] at hcollapse
    refine hcollapse.trans ?_
    simp

/-- Reports that only grow and a signal that is not blank keep the modes together. -/
theorem Step.modes_agree_growing_usage :
    let r : Replay :=
      { script :=
          [{ text := some "Hel", finishReason := some " ", usage := some ⟨10, 1⟩ },
            { text := some "lo", finishReason := some "length", usage := some ⟨10, 6⟩ }]
        tail := .transportError "reset" }
    let i : Invocation := { id := "inv-1", agent := { name := "a" }, sessionId := "session-1" }
    let live := take { task := "t", stream := true } (.replay r) i { id := "session-1" } 0
    let whole := take { task := "t", stream := false } (.replay r) i { id := "session-1" } 0
    r.tail ≠ .hang ∧ live.close.status? = whole.close.status? ∧ live.final? = whole.final? := by
  intro r i live whole
  have htail : r.tail ≠ .hang := by decide
  have hreason : Answer.KeepsReason r.script := by
    intro s hs
    have hlast : Answer.lastSignal? r.script = Answer.signal? r.script := by decide +kernel
    exact Or.inl (hlast.trans hs)
  have husage : Answer.KeepsUsage r.script := by
    rw [Answer.KeepsUsage]
    decide +kernel
  have hagree := (modes_agree_iff "t" r i { id := "session-1" } 0 htail).2.2
  exact ⟨htail, hagree.mpr (Or.inr (Or.inr ⟨hreason, husage⟩))⟩

/-- A blank signal after the one that counts: the deltas end in a response, the whole answer in an
error. -/
theorem Step.modes_differ_blank_signal :
    let r : Replay :=
      { script := [.ofFinish "length", .ofFinish " "], tail := .transportError "reset" }
    let i : Invocation := { id := "inv-1", agent := { name := "a" }, sessionId := "session-1" }
    let live := take { task := "t", stream := true } (.replay r) i { id := "session-1" } 0
    let whole := take { task := "t", stream := false } (.replay r) i { id := "session-1" } 0
    live.close.status? = some .succeeded ∧ whole.close.status? = some .failed ∧
      live.final? ≠ whole.final? := by
  decide +kernel

end Ensemble
