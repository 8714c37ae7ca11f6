import Ensemble.Proofs.Call.Block
import Ensemble.Proofs.Call.Modes
import Ensemble.Proofs.Response.Pieces

/-!
Calls whose stream breaks.  What had arrived until then decides how such a call ends: as soon as the
response to it shows anything, the call succeeds with that response.  A fragment of a tool call is
enough as well, even one without id and name, whose call is left out of the response; without any of
these the call fails and its final event is the error.
-/

namespace Ensemble

/-- Whether a response shows anything: a text that is not empty, a tool call or a finish reason. -/
def Response.isVisible (r : Response) : Bool :=
  (r.text.bind Delta.nonEmpty?).isSome || !r.toolCalls.isEmpty || r.finishReason.isSome

namespace Answer

theorem call?_eq_none_iff (fs : List CallFragment) :
    call? fs = none ↔ ∀ f ∈ fs, f.isNamed = false := by
  rw [call?]
  cases h : fs.any CallFragment.isNamed with
  | true =>
    obtain ⟨f, hf, hnamed⟩ := List.any_eq_true.mp h
    simp only [reduceIte, reduceCtorEq, false_iff]
    intro hnone
    rw [hnone f hf] at hnamed
    cases hnamed
  | false => simpa using h

/-- No tool call is made exactly if no fragment has an id or a name. -/
theorem toolCalls_eq_nil_iff (ds : List Delta) :
    toolCalls ds = [] ↔ ∀ f ∈ fragments ds, f.isNamed = false := by
  rw [toolCalls, List.filterMap_eq_nil_iff]
  constructor
  · intro h f hf
    have hat : f ∈ fragmentsAt ds f.index := List.mem_filter.mpr ⟨hf, by simp⟩
    exact (call?_eq_none_iff _).mp (h f.index (mem_positions hat)) f hat
  · intro h position _
    exact (call?_eq_none_iff _).mpr fun f hf => h f (List.mem_filter.mp hf).1

theorem isSome_finishReason (ds : List Delta) :
    (finishReason ds).isSome = ((signal? ds).isSome || !(toolCalls ds).isEmpty) := by
  rw [finishReason]
  cases h : signal? ds with
  | none => cases (toolCalls ds).isEmpty <;> rfl
  | some s =>
    have hclass := (FinishReason.classify_isSome_iff s).mpr (not_blank_of_signal? h)
    simpa using hclass

theorem isVisible_response (ds : List Delta) (termination : Termination) :
    (response ds termination).isVisible =
      (!(text ds).isEmpty || !(toolCalls ds).isEmpty || (signal? ds).isSome) := by
  have htext : ((Delta.nonEmpty? (text ds)).bind Delta.nonEmpty?).isSome = !(text ds).isEmpty := by
    by_cases h : text ds = ""
    · rw [h]
      rfl
    · simp [Delta.nonEmpty?_of_ne h, h]
  rw [Response.isVisible, response, htext, isSome_finishReason]
  cases (toolCalls ds).isEmpty <;> simp

/-- What has arrived shows in the response, or it is a fragment. -/
theorem any_bringsOutput_eq (ds : List Delta) (termination : Termination) :
    ds.any Delta.bringsOutput =
      ((response ds termination).isVisible || !(fragments ds).isEmpty) := by
  rw [Assembly.any_bringsOutput, isVisible_response]
  cases hfragments : (fragments ds).isEmpty with
  | false => simp
  | true =>
    have hcalls : toolCalls ds = [] := by
      rw [toolCalls_eq_nil_iff, List.isEmpty_iff.mp hfragments]
      nofun
    simp [hcalls]

end Answer

theorem Call.finalDraft_broken (author : String) (arrived : List (Nat × Delta)) (message : String) :
    let ds := arrived.map Prod.snd
    let response := Answer.response ds (.transportError message)
    finalDraft author arrived (.transportError message) =
      if response.isVisible || !(Answer.fragments ds).isEmpty then .response author response
      else .error author message := by
  intro ds response
  rw [finalDraft, finish_pushAll, Answer.final, Answer.any_bringsOutput_eq]

/-- A call whose stream breaks succeeds with the response to what had arrived exactly if that shows
something or a fragment of a tool call had arrived, and it fails with the error otherwise.  A
response that shows nothing has only met fragments without id and name. -/
theorem Step.take_broken (ctx : Run.Context) (r : Replay) (i : Invocation) (s : Session) (now : Nat)
    {tick : Nat} {message : String} (hopen : ctx.signals.interrupt? now = none)
    (hbroken : (r.call ctx.signals ctx.stream now).ending =
      .ended tick (.transportError message)) :
    let ds := (r.call ctx.signals ctx.stream now).arrived.map Prod.snd
    let response := Answer.response ds (.transportError message)
    let step := take ctx (.replay r) i s now
    (step.close = .closed tick .succeeded (some response) ∧
        step.final? = some (.response i.author response) ↔
      response.isVisible = true ∨ Answer.fragments ds ≠ []) ∧
    (step.close = .closed tick .failed none ∧ step.final? = some (.error i.author message) ↔
      response.isVisible = false ∧ Answer.fragments ds = []) ∧
    (response.isVisible = false → ∀ f ∈ Answer.fragments ds, f.isNamed = false) := by
  intro ds response step
  obtain ⟨hclose, hfinal⟩ := take_heard ctx r i s now hopen hbroken
  rw [Call.finalDraft_broken] at hclose hfinal
  have hanonymous : response.isVisible = false → ∀ f ∈ Answer.fragments ds, f.isNamed = false := by
    intro hempty
    rw [Answer.isVisible_response, Bool.or_eq_false_iff, Bool.or_eq_false_iff] at hempty
    exact (Answer.toolCalls_eq_nil_iff ds).mp (by simpa using hempty.1.2)
  by_cases harrived : (response.isVisible || !(Answer.fragments ds).isEmpty) = true
  · rw [if_pos harrived] at hclose hfinal
    rw [Call.statusOf_response] at hclose
    have hsome : response.isVisible = true ∨ Answer.fragments ds ≠ [] := by simpa using harrived
    refine ⟨⟨fun _ => hsome, fun _ => ⟨hclose, hfinal⟩⟩, ⟨fun hfailed => ?_, ?_⟩, hanonymous⟩
    · rw [hclose] at hfailed
      cases hfailed.1
    · rintro ⟨hempty, hnone⟩
      simp [hempty, hnone] at hsome
  · rw [if_neg harrived] at hclose hfinal
    have hnothing : response.isVisible = false ∧ Answer.fragments ds = [] := by
      simpa using harrived
    refine ⟨⟨fun hsucceeded => ?_, ?_⟩, ⟨fun _ => hnothing, fun _ => ⟨hclose, hfinal⟩⟩, hanonymous⟩
    · rw [hclose] at hsucceeded
      cases hsucceeded.1
    · rintro (hvisible | hsome)
      · rw [hnothing.1] at hvisible
        cases hvisible
      · exact absurd hnothing.2 hsome

/-- A blank signal and a report of usage are nothing to go on; with the fragments behind them the call
succeeds. -/
theorem Step.take_broken_named_fragment :
    let r : Replay :=
      { script :=
          [{ finishReason := some " ", usage := some ⟨3, 1⟩ },
            { toolCalls := [{ index := 0 }, { index := 2, name := some "exit_loop" }] }]
        delay := 5
        tail := .transportError "reset" }
    let ctx : Run.Context := { task := "t", signals := { cancelAt := some 11 } }
    let i : Invocation := { id := "inv-1", agent := { name := "a" }, sessionId := "session-1" }
    let step := take ctx (.replay r) i { id := "session-1" } 0
    let message := (AgentError.transport "reset").message
    ctx.signals.interrupt? 0 = none ∧
      (r.call ctx.signals ctx.stream 0).ending = .ended 10 (.transportError message) ∧
      step.close =
        .closed 10 .succeeded (some (Answer.response r.script (.transportError message))) := by
  intro r ctx i step message
  have hopen : ctx.signals.interrupt? 0 = none := by decide
  have hbroken :
      (r.call ctx.signals ctx.stream 0).ending = .ended 10 (.transportError message) := by
    decide +kernel
  have hsome : Answer.fragments r.script ≠ [] := by decide
  have hstep := (take_broken ctx r i { id := "session-1" } 0 hopen hbroken).1
  exact ⟨hopen, hbroken, (hstep.mpr (.inr hsome)).1⟩

/-- All that arrives is a fragment without id and name: the call breaks, and yet it succeeds with a
response that shows nothing. -/
theorem Step.broken_succeeds_empty :
    let r : Replay :=
      { script := [{ toolCalls := [{ index := 0 }] }]
        tail := .transportError "reset" }
    let i : Invocation := { id := "inv-1", agent := { name := "a" }, sessionId := "session-1" }
    let step := take { task := "t" } (.replay r) i { id := "session-1" } 0
    ∃ response, step.close = .closed 0 .succeeded (some response) ∧
      response.text = none ∧ response.toolCalls = [] ∧ response.finishReason = none := by
  refine ⟨Answer.response [{ toolCalls := [{ index := 0 }] }]
    (.transportError (AgentError.transport "reset").message), ?_⟩
  decide +kernel

end Ensemble
