import Ensemble.Proofs.Workflow.Bounds
import Mathlib.Logic.Basic

/-!
The rules that a definition has to obey.  A definition that obeys them all becomes the
specification that it describes; of one that breaks some, the fault under the first broken rule is
reported, in the order in which the rules stand here.
-/

namespace Ensemble

/-- A name in which some character can be seen. -/
def AgentReference.Named (r : AgentReference) : Prop :=
  ∃ c ∈ r.name.toList, Text.isBlank c = false

/-- A reference that a workflow may list. -/
def AgentReference.Sound (r : AgentReference) : Prop :=
  r.Named ∧ r.kind = "Agent"

theorem AgentReference.not_named_iff (r : AgentReference) :
    ¬ r.Named ↔ Text.isBlankText r.name = true := by
  simp [Named, Text.isBlankText]

namespace Workflow

/-! ## What a definition declares -/

/-- The parts of a definition, each of which declares a composition. -/
inductive Part where
  | sequential (p : SequentialPart)
  | parallel (p : ParallelPart)
  | loop (p : LoopPart)

namespace Part

def name : Part → String
  | .sequential _ => "sequential"
  | .parallel _ => "parallel"
  | .loop _ => "loop"

def subAgents : Part → List AgentReference
  | .sequential p => p.subAgents
  | .parallel p => p.subAgents
  | .loop p => p.subAgents

/-- A parallel part without a worker count takes the given one. -/
def composition (defaultWorkers : UInt32) : Part → Composition
  | .sequential _ => .sequential
  | .parallel p => .parallel (p.maxWorkers.getD defaultWorkers).toNat
  | .loop p => .loop p.maxIterations.toNat

end Part

/-- The parts that a definition has, in the order of their declaration. -/
def Definition.parts (d : Definition) : List Part :=
  (d.sequential.map Part.sequential).toList ++ (d.parallel.map Part.parallel).toList ++
    (d.loop.map Part.loop).toList

/-! ## The rules -/

/-- A count that may be asked for. -/
def Within (limit : Nat) (count : UInt32) : Prop :=
  1 ≤ count.toNat ∧ count.toNat ≤ limit

/-- A part that asks for too few or too many workers or iterations, and what it asks for. -/
inductive Part.Exceeds (defaultWorkers : UInt32) : Part → Fault → Prop
  | workers {p : ParallelPart} (h : ¬ Within 50 (p.maxWorkers.getD defaultWorkers)) :
      Exceeds defaultWorkers (.parallel p) (.maxWorkers (p.maxWorkers.getD defaultWorkers))
  | iterations {p : LoopPart} (h : ¬ Within 100 p.maxIterations) :
      Exceeds defaultWorkers (.loop p) (.maxIterations p.maxIterations)

/-- A reference at a position that no workflow may list there. -/
inductive Offends (position : Nat) (r : AgentReference) : Fault → Prop
  | blankName (h : ¬ r.Named) : Offends position r (.emptySubAgentName position)
  | foreignKind (hname : r.Named) (hkind : r.kind ≠ "Agent") :
      Offends position r (.unsupportedKind r.name r.kind)

/-- The rules in the order in which they are checked. -/
inductive Rule where
  | atMostOnePart
  | somePart
  | bound
  | subAgentCount
  | subAgents
  | timeout

def Rule.place : Rule → Nat
  | .atMostOnePart => 0
  | .somePart => 1
  | .bound => 2
  | .subAgentCount => 3
  | .subAgents => 4
  | .timeout => 5

namespace Definition

/-- A definition that breaks a rule, and the fault to report then.  Of the sub-agents it is the
first one from the left that counts; its position is the number of those in front of it. -/
inductive Breaks (d : Definition) (defaultWorkers : UInt32) : Rule → Fault → Prop
  | severalParts (h : 1 < d.parts.length) :
      Breaks d defaultWorkers .atMostOnePart (.multipleCompositions (d.parts.map Part.name))
  | noPart (h : d.parts = []) : Breaks d defaultWorkers .somePart .noComposition
  | bound {part : Part} {fault : Fault} (hpart : part ∈ d.parts)
      (h : part.Exceeds defaultWorkers fault) : Breaks d defaultWorkers .bound fault
  | subAgentCount {part : Part} (hpart : part ∈ d.parts)
      (h : ¬ (2 ≤ part.subAgents.length ∧ part.subAgents.length ≤ 50)) :
      Breaks d defaultWorkers .subAgentCount (.subAgentCount part.subAgents.length)
  | subAgents {part : Part} {before after : List AgentReference} {r : AgentReference}
      {fault : Fault} (hpart : part ∈ d.parts) (hlist : part.subAgents = before ++ r :: after)
      (hbefore : ∀ x ∈ before, x.Sound) (h : Offends before.length r fault) :
      Breaks d defaultWorkers .subAgents fault
  | timeout {text : String} {reason : Duration.Fault} (htext : d.timeout = some text)
      (h : Duration.read text = .error reason) :
      Breaks d defaultWorkers .timeout (.invalidTimeout text reason)

/-- The fault under the first rule that a definition breaks. -/
def FirstBroken (d : Definition) (defaultWorkers : UInt32) (fault : Fault) : Prop :=
  ∃ rule, d.Breaks defaultWorkers rule fault ∧
    ∀ earlier f, earlier.place < rule.place → ¬ d.Breaks defaultWorkers earlier f

/-- A definition that has one part only and keeps to every rule. -/
structure Legal (d : Definition) (defaultWorkers : UInt32) (part : Part) : Prop where
  parts : d.parts = [part]
  workers : ∀ p, part = .parallel p → Within 50 (p.maxWorkers.getD defaultWorkers)
  iterations : ∀ p, part = .loop p → Within 100 p.maxIterations
  subAgentCount : 2 ≤ part.subAgents.length ∧ part.subAgents.length ≤ 50
  subAgents : ∀ r ∈ part.subAgents, r.Sound
  timeout : ∀ text ∈ d.timeout, ∃ limit, Duration.read text = .ok limit

/-- The specification that a definition with this part describes. -/
structure Describes (d : Definition) (defaultWorkers : UInt32) (part : Part) (spec : Spec) :
    Prop where
  composition : spec.composition = part.composition defaultWorkers
  subAgents : spec.subAgents = part.subAgents
  description : spec.description = d.description
  timeout : Option.Rel (fun text limit => Duration.read text = .ok limit ∧ 0 < limit.nanos)
    d.timeout spec.timeout

variable {d : Definition} {defaultWorkers : UInt32} {part : Part}

/-! ## The composition -/

theorem within_iff (limit count : UInt32) :
    (decide (1 ≤ count) && decide (count ≤ limit)) = true ↔ Within limit.toNat count := by
  rw [Bool.and_eq_true, decide_eq_true_eq, decide_eq_true_eq, UInt32.le_iff_toNat_le,
    UInt32.le_iff_toNat_le]
  exact Iff.rfl

/-- What a part that stands alone comes to. -/
def ofPart (defaultWorkers : UInt32) :
    Part → Except Fault (Composition × List AgentReference)
  | .sequential p => .ok (.sequential, p.subAgents)
  | .parallel p =>
    let count := p.maxWorkers.getD defaultWorkers
    if 1 ≤ count && count ≤ maxWorkersLimit then .ok (.parallel count.toNat, p.subAgents)
    else .error (.maxWorkers count)
  | .loop p =>
    if 1 ≤ p.maxIterations && p.maxIterations ≤ maxIterationsLimit then
      .ok (.loop p.maxIterations.toNat, p.subAgents)
    else .error (.maxIterations p.maxIterations)

theorem composition_eq (d : Definition) (defaultWorkers : UInt32) :
    d.composition defaultWorkers =
      match d.parts with
      | [] => .error .noComposition
      | [part] => ofPart defaultWorkers part
      | parts => .error (.multipleCompositions (parts.map Part.name)) := by
  obtain ⟨_, _, sequential, parallel, loop⟩ := d
  cases sequential <;> cases parallel <;> cases loop <;> rfl

theorem composition_of_none (h : d.parts = []) :
    d.composition defaultWorkers = .error .noComposition := by
  rw [composition_eq, h]

theorem composition_of_one (h : d.parts = [part]) :
    d.composition defaultWorkers = ofPart defaultWorkers part := by
  rw [composition_eq, h]

theorem composition_of_several (h : 1 < d.parts.length) :
    d.composition defaultWorkers = .error (.multipleCompositions (d.parts.map Part.name)) := by
  rw [composition_eq]
  match hparts : d.parts with
  | [] | [_] => simp [hparts] at h
  | _ :: _ :: _ => rfl

theorem ofPart_of_exceeds {fault : Fault} (h : part.Exceeds defaultWorkers fault) :
    ofPart defaultWorkers part = .error fault := by
  cases h with
  | workers h => exact if_neg (mt (within_iff maxWorkersLimit _).mp h)
  | iterations h => exact if_neg (mt (within_iff maxIterationsLimit _).mp h)

theorem ofPart_of_not_exceeds (h : ∀ fault, ¬ part.Exceeds defaultWorkers fault) :
    ofPart defaultWorkers part = .ok (part.composition defaultWorkers, part.subAgents) := by
  cases part with
  | sequential p => rfl
  | parallel p =>
    have hin : Within 50 (p.maxWorkers.getD defaultWorkers) :=
      Classical.byContradiction fun hout => h _ (.workers hout)
    exact if_pos ((within_iff maxWorkersLimit _).mpr hin)
  | loop p =>
    have hin : Within 100 p.maxIterations :=
      Classical.byContradiction fun hout => h _ (.iterations hout)
    exact if_pos ((within_iff maxIterationsLimit _).mpr hin)

end Definition

/-! ## The sub-agents -/

theorem referenceFault?_of_sound {r : AgentReference} (h : r.Sound) (position : Nat) :
    referenceFault? position r = none := by
  rw [referenceFault?, if_neg (mt r.not_named_iff.mpr (not_not_intro h.1)),
    if_neg (show ¬ r.kind ≠ agentKind from not_not_intro h.2)]

theorem referenceFault?_of_offends {r : AgentReference} {position : Nat} {fault : Fault}
    (h : Offends position r fault) : referenceFault? position r = some fault := by
  cases h with
  | blankName h => rw [referenceFault?, if_pos (r.not_named_iff.mp h)]
  | foreignKind hname hkind =>
    rw [referenceFault?, if_neg (mt r.not_named_iff.mpr (not_not_intro hname)),
      if_pos (show r.kind ≠ agentKind from hkind)]

theorem exists_offends_of_not_sound {r : AgentReference} (h : ¬ r.Sound) (position : Nat) :
    ∃ fault, Offends position r fault := by
  by_cases hname : r.Named
  · exact ⟨_, .foreignKind hname fun hkind => h ⟨hname, hkind⟩⟩
  · exact ⟨_, .blankName hname⟩

theorem firstReferenceFault?_append {before : List AgentReference}
    (hbefore : ∀ x ∈ before, x.Sound) (position : Nat) (rs : List AgentReference) :
    firstReferenceFault? position (before ++ rs) =
      firstReferenceFault? (position + before.length) rs := by
  induction before generalizing position with
  | nil => rfl
  | cons x before ih =>
    obtain ⟨hx, hrest⟩ := List.forall_mem_cons.mp hbefore
    rw [List.cons_append, firstReferenceFault?, referenceFault?_of_sound hx, Option.none_or,
      ih hrest, List.length_cons]
    congr 1
    omega

theorem subAgentsFault?_of_count {rs : List AgentReference}
    (h : ¬ (2 ≤ rs.length ∧ rs.length ≤ 50)) :
    subAgentsFault? rs = some (.subAgentCount rs.length) := by
  rw [subAgentsFault?, if_neg]
  rwa [Bool.and_eq_true, decide_eq_true_eq, decide_eq_true_eq]

theorem subAgentsFault?_eq {rs : List AgentReference} (h : 2 ≤ rs.length ∧ rs.length ≤ 50) :
    subAgentsFault? rs = firstReferenceFault? 0 rs := by
  rw [subAgentsFault?, if_pos]
  rwa [Bool.and_eq_true, decide_eq_true_eq, decide_eq_true_eq]

theorem firstReferenceFault?_of_sound {rs : List AgentReference} (h : ∀ r ∈ rs, r.Sound) :
    firstReferenceFault? 0 rs = none := by
  have happend := firstReferenceFault?_append h 0 []
  rwa [List.append_nil] at happend

theorem firstReferenceFault?_of_offends {before after : List AgentReference} {r : AgentReference}
    {fault : Fault} (hbefore : ∀ x ∈ before, x.Sound) (h : Offends before.length r fault) :
    firstReferenceFault? 0 (before ++ r :: after) = some fault := by
  rw [firstReferenceFault?_append hbefore, firstReferenceFault?, Nat.zero_add,
    referenceFault?_of_offends h, Option.some_or]

/-! ## The verdict -/

namespace Definition

variable {d : Definition} {defaultWorkers : UInt32} {part : Part} {fault : Fault}

/-- A definition that breaks none of the rules before a place. -/
def KeepsBelow (d : Definition) (defaultWorkers : UInt32) (place : Nat) : Prop :=
  ∀ rule f, rule.place < place → ¬ d.Breaks defaultWorkers rule f

theorem KeepsBelow.mono {place place' : Nat} (h : d.KeepsBelow defaultWorkers place)
    (hle : place' ≤ place) : d.KeepsBelow defaultWorkers place' :=
  fun rule f hlt => h rule f (Nat.lt_of_lt_of_le hlt hle)

theorem KeepsBelow.parts_eq (h : d.KeepsBelow defaultWorkers 1) (hpart : part ∈ d.parts) :
    d.parts = [part] := by
  have hle : d.parts.length ≤ 1 := by
    refine Nat.le_of_not_lt fun hlt => ?_
    exact h .atMostOnePart _ (by decide) (.severalParts hlt)
  have hpos := List.length_pos_of_mem hpart
  obtain ⟨only, honly⟩ := List.length_eq_one_iff.mp (Nat.le_antisymm hle hpos)
  rw [honly, List.mem_singleton] at hpart
  rw [honly, hpart]

theorem KeepsBelow.exists_part (h : d.KeepsBelow defaultWorkers 2) : ∃ part, part ∈ d.parts :=
  List.exists_mem_of_ne_nil _ fun hnil => h .somePart _ (by decide) (.noPart hnil)

theorem KeepsBelow.composition_eq (h : d.KeepsBelow defaultWorkers 3) (hpart : part ∈ d.parts) :
    d.composition defaultWorkers =
      .ok (part.composition defaultWorkers, part.subAgents) := by
  rw [composition_of_one ((h.mono (by decide)).parts_eq hpart)]
  exact ofPart_of_not_exceeds fun f hf => h .bound f (by decide) (.bound hpart hf)

theorem KeepsBelow.count (h : d.KeepsBelow defaultWorkers 4) (hpart : part ∈ d.parts) :
    2 ≤ part.subAgents.length ∧ part.subAgents.length ≤ 50 :=
  Classical.byContradiction fun hout =>
    h .subAgentCount _ (by decide) (.subAgentCount hpart hout)

theorem KeepsBelow.sound (h : d.KeepsBelow defaultWorkers 5) (hpart : part ∈ d.parts) :
    ∀ r ∈ part.subAgents, r.Sound := by
  refine Classical.byContradiction fun hnot => ?_
  obtain ⟨before, r, after, hlist, hbefore, hr⟩ := exists_first_not hnot
  obtain ⟨f, hf⟩ := exists_offends_of_not_sound hr before.length
  exact h .subAgents f (by decide) (.subAgents hpart hlist hbefore hf)

theorem KeepsBelow.subAgentsFault?_eq (h : d.KeepsBelow defaultWorkers 5)
    (hpart : part ∈ d.parts) : subAgentsFault? part.subAgents = none := by
  rw [Workflow.subAgentsFault?_eq ((h.mono (by decide)).count hpart)]
  exact firstReferenceFault?_of_sound (h.sound hpart)

theorem validate_of_composition (h : d.composition defaultWorkers = .error fault) :
    d.validate defaultWorkers = .error fault := by
  unfold validate
  rw [h]

section Composed

variable {c : Composition} {rs : List AgentReference}

theorem validate_of_subAgents (hc : d.composition defaultWorkers = .ok (c, rs))
    (h : subAgentsFault? rs = some fault) : d.validate defaultWorkers = .error fault := by
  unfold validate
  rw [hc]
  simp only [h]

theorem validate_of_readTimeout_error (hc : d.composition defaultWorkers = .ok (c, rs))
    (hrs : subAgentsFault? rs = none) (h : readTimeout d.timeout = .error fault) :
    d.validate defaultWorkers = .error fault := by
  unfold validate
  rw [hc]
  simp only [hrs, h]

theorem validate_of_readTimeout {limit : Option Duration}
    (hc : d.composition defaultWorkers = .ok (c, rs)) (hrs : subAgentsFault? rs = none)
    (h : readTimeout d.timeout = .ok limit) :
    d.validate defaultWorkers = .ok ⟨d.description, limit, c, rs⟩ := by
  unfold validate
  rw [hc]
  simp only [hrs, h]

end Composed

/-- The fault of the first broken rule is reported. -/
theorem validate_of_firstBroken (h : d.FirstBroken defaultWorkers fault) :
    d.validate defaultWorkers = .error fault := by
  obtain ⟨rule, hbreaks, hkept⟩ := h
  have hkept : d.KeepsBelow defaultWorkers rule.place := hkept
  -- the rules before the broken one are kept, so the checks before its own one pass
  cases hbreaks with
  | severalParts h => exact validate_of_composition (composition_of_several h)
  | noPart h => exact validate_of_composition (composition_of_none h)
  | bound hpart h =>
    have hparts := (hkept.mono (by decide)).parts_eq hpart
    exact validate_of_composition ((composition_of_one hparts).trans (ofPart_of_exceeds h))
  | subAgentCount hpart h =>
    exact validate_of_subAgents (hkept.composition_eq hpart) (subAgentsFault?_of_count h)
  | subAgents hpart hlist hbefore h =>
    have hcomposition := (hkept.mono (by decide)).composition_eq hpart
    have hcount := hkept.count hpart
    refine validate_of_subAgents hcomposition ?_
    rw [Workflow.subAgentsFault?_eq hcount, hlist, firstReferenceFault?_of_offends hbefore h]
  | timeout htext h =>
    obtain ⟨part, hpart⟩ := (hkept.mono (by decide)).exists_part
    have hcomposition := (hkept.mono (by decide)).composition_eq hpart
    refine validate_of_readTimeout_error hcomposition (hkept.subAgentsFault?_eq hpart) ?_
    rw [htext, readTimeout, h]

theorem Legal.keeps (h : d.Legal defaultWorkers part) (place : Nat) :
    d.KeepsBelow defaultWorkers place := by
  intro rule f _ hbreaks
  have honly {p : Part} (hp : p ∈ d.parts) : p = part := by
    rwa [h.parts, List.mem_singleton] at hp
  cases hbreaks with
  | severalParts hlength =>
    rw [h.parts] at hlength
    exact absurd hlength (by simp)
  | noPart hnil =>
    rw [h.parts] at hnil
    cases hnil
  | bound hpart hexceeds =>
    cases hexceeds with
    | workers hout => exact hout (h.workers _ (honly hpart).symm)
    | iterations hout => exact hout (h.iterations _ (honly hpart).symm)
  | subAgentCount hpart hcount =>
    rw [honly hpart] at hcount
    exact hcount h.subAgentCount
  | @subAgents _ _ _ r _ hpart hlist _ hoffends =>
    rw [honly hpart] at hlist
    have hr : r.Sound := h.subAgents r (by rw [hlist]; simp)
    cases hoffends with
    | blankName hname => exact hname hr.1
    | foreignKind _ hkind => exact hkind hr.2
  | timeout htext herror =>
    obtain ⟨limit, hlimit⟩ := h.timeout _ htext
    rw [hlimit] at herror
    cases herror

/-- Whoever breaks no rule is legal. -/
theorem KeepsBelow.exists_legal (h : d.KeepsBelow defaultWorkers 6) :
    ∃ part, d.Legal defaultWorkers part := by
  obtain ⟨part, hpart⟩ := (h.mono (by decide)).exists_part
  refine ⟨part, (h.mono (by decide)).parts_eq hpart, ?_, ?_, (h.mono (by decide)).count hpart,
    (h.mono (by decide)).sound hpart, ?_⟩
  · rintro p rfl
    exact Classical.byContradiction fun hout =>
      h .bound _ (by decide) (.bound hpart (.workers hout))
  · rintro p rfl
    exact Classical.byContradiction fun hout =>
      h .bound _ (by decide) (.bound hpart (.iterations hout))
  · intro text htext
    cases hread : Duration.read text with
    | ok limit => exact ⟨limit, rfl⟩
    | error reason => exact absurd (.timeout htext hread) (h .timeout _ (by decide))

theorem Breaks.exists_first {rule : Rule} (h : d.Breaks defaultWorkers rule fault) :
    ∃ first, d.FirstBroken defaultWorkers first := by
  induction hplace : rule.place using Nat.strongRecOn generalizing rule fault with
  | ind place ih =>
    -- an earlier broken rule takes the place of this one as long as there is any
    by_cases hkept : d.KeepsBelow defaultWorkers rule.place
    · exact ⟨fault, rule, h, hkept⟩
    · simp only [KeepsBelow, not_forall, not_not] at hkept
      obtain ⟨earlier, f, hlt, hbreaks⟩ := hkept
      exact ih earlier.place (hplace ▸ hlt) hbreaks rfl

/-- A definition is legal, or there is a first rule that it breaks. -/
theorem legal_or_firstBroken (d : Definition) (defaultWorkers : UInt32) :
    (∃ part, d.Legal defaultWorkers part) ∨ ∃ fault, d.FirstBroken defaultWorkers fault := by
  by_cases h : d.KeepsBelow defaultWorkers 6
  · exact .inl h.exists_legal
  · simp only [KeepsBelow, not_forall, not_not] at h
    obtain ⟨rule, f, -, hbreaks⟩ := h
    exact .inr hbreaks.exists_first

theorem readTimeout_of_describes {timeout : Option String} {limit : Option Duration}
    (h : Option.Rel (fun text limit => Duration.read text = .ok limit ∧ 0 < limit.nanos) timeout
      limit) : readTimeout timeout = .ok limit := by
  cases h with
  | some h => rw [readTimeout, h.1]
  | none => rfl

/-- A legal definition becomes the specification that it describes. -/
theorem Legal.validate_eq {spec : Spec} (h : d.Legal defaultWorkers part)
    (hspec : d.Describes defaultWorkers part spec) : d.validate defaultWorkers = .ok spec := by
  have hpart : part ∈ d.parts := by rw [h.parts, List.mem_singleton]
  rw [validate_of_readTimeout ((h.keeps 3).composition_eq hpart)
    ((h.keeps 5).subAgentsFault?_eq hpart) (readTimeout_of_describes hspec.timeout),
    ← hspec.composition, ← hspec.subAgents, ← hspec.description]

theorem Legal.exists_describes (h : d.Legal defaultWorkers part) :
    ∃ spec, d.Describes defaultWorkers part spec := by
  cases htimeout : d.timeout with
  | none =>
    refine ⟨⟨d.description, none, part.composition defaultWorkers, part.subAgents⟩,
      rfl, rfl, rfl, ?_⟩
    rw [htimeout]
    exact .none
  | some text =>
    obtain ⟨limit, hlimit⟩ := h.timeout text htimeout
    refine ⟨⟨d.description, some limit, part.composition defaultWorkers, part.subAgents⟩,
      rfl, rfl, rfl, ?_⟩
    rw [htimeout]
    exact .some ⟨hlimit, pos_of_read hlimit⟩

/-- Exactly the legal definitions are accepted.  What comes of one is the specification that it
describes, with a timeout that is never zero; of every other definition the first broken rule is
reported. -/
theorem validate_iff (d : Definition) (defaultWorkers : UInt32) :
    ((∃ spec, d.validate defaultWorkers = .ok spec) ↔ ∃ part, d.Legal defaultWorkers part) ∧
    (∀ spec, d.validate defaultWorkers = .ok spec ↔
      ∃ part, d.Legal defaultWorkers part ∧ d.Describes defaultWorkers part spec) ∧
    ∀ fault, d.validate defaultWorkers = .error fault ↔ d.FirstBroken defaultWorkers fault := by
  have hok (spec : Spec) : d.validate defaultWorkers = .ok spec ↔
      ∃ part, d.Legal defaultWorkers part ∧ d.Describes defaultWorkers part spec := by
    refine ⟨fun h => ?_, fun ⟨part, hlegal, hspec⟩ => hlegal.validate_eq hspec⟩
    rcases d.legal_or_firstBroken defaultWorkers with ⟨part, hlegal⟩ | ⟨fault, hfirst⟩
    · obtain ⟨described, hspec⟩ := hlegal.exists_describes
      have hsame : described = spec := Except.ok.inj ((hlegal.validate_eq hspec).symm.trans h)
      exact ⟨part, hlegal, hsame ▸ hspec⟩
    · cases h.symm.trans (validate_of_firstBroken hfirst)
  refine ⟨⟨fun ⟨spec, h⟩ => ?_, fun ⟨part, hlegal⟩ => ?_⟩, hok, fun fault => ⟨fun h => ?_,
    validate_of_firstBroken⟩⟩
  · obtain ⟨part, hlegal, -⟩ := (hok spec).mp h
    exact ⟨part, hlegal⟩
  · obtain ⟨spec, hspec⟩ := hlegal.exists_describes
    exact ⟨spec, hlegal.validate_eq hspec⟩
  · rcases d.legal_or_firstBroken defaultWorkers with ⟨part, hlegal⟩ | ⟨first, hfirst⟩
    · obtain ⟨spec, hspec⟩ := hlegal.exists_describes
      cases h.symm.trans (hlegal.validate_eq hspec)
    · obtain rfl : first = fault :=
        Except.error.inj ((validate_of_firstBroken hfirst).symm.trans h)
      exact hfirst

-- the default is too large, there are no sub-agents and the timeout cannot be read
example : validate { timeout := some "soon", parallel := some {} } 51 = .error (.maxWorkers 51) :=
  rfl

end Definition

end Workflow

end Ensemble
