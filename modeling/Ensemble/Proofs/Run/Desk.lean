import Ensemble.Proofs.Pool.Desk
import Ensemble.Proofs.Run.Interleaving

/-!
The branches of a run side by side use the pool as a desk is used: whatever a fleet comes to, its
pool has come to the same by attempts of the branches and by slots that were given back.
-/

namespace Ensemble

/-! ## Steps of a desk while nothing interrupts -/

namespace Desk

variable {d : Desk} {who : Nat}

theorem Step.tookUp (hgranted : who ∈ d.granted) (hheld : who ∉ d.holding) :
    d.Step { d with granted := d.granted.erase who, holding := d.holding ++ [who] } := by
  have hline : who ∈ d.line := List.mem_append_left _ hgranted
  have hstep : d.Step (d.poll who none).1 := .polled {} 0 hheld
  rw [poll, if_pos hline, resume, if_pos hgranted] at hstep
  exact hstep

theorem Step.joined (hline : who ∉ d.line) (hheld : who ∉ d.holding) (hfree : d.pool.free = 0) :
    d.Step { d with pool := { d.pool with waiting := d.pool.waiting ++ [who] } } := by
  have hstep : d.Step (d.poll who none).1 := .polled {} 0 hheld
  rw [poll, if_neg hline, ask_full hfree] at hstep
  exact hstep

theorem Step.took (hline : who ∉ d.line) (hheld : who ∉ d.holding) {free : Nat}
    (hfree : d.pool.free = free + 1) :
    d.Step { d with pool := { d.pool with free }, holding := d.holding ++ [who] } := by
  have hstep : d.Step (d.poll who none).1 := .polled {} 0 hheld
  rw [poll, if_neg hline, ask_free hfree] at hstep
  exact hstep

end Desk

namespace Run

/-! ## Branches at the desk -/

namespace Branch

def isGranted (b : Branch) : Bool :=
  match b.phase with
  | .granted => true
  | _ => false

def isCalling (b : Branch) : Bool :=
  match b.phase with
  | .calling _ _ => true
  | _ => false

theorem holdsSlot_eq (b : Branch) : b.holdsSlot = (b.isGranted || b.isCalling) := by
  unfold holdsSlot isGranted isCalling
  cases b.phase <;> rfl

/-- A branch that neither comes nor goes may at most take up the slot that it was granted. -/
theorem Moves.kept_cases {ctx : Context} {now : Nat} {b b' : Branch} (hmove : b.Moves ctx now b')
    (hwaiting : b.isWaiting = false) (hwaiting' : b'.isWaiting = false)
    (hslot : b'.holdsSlot = b.holdsSlot) :
    (b'.isGranted = b.isGranted ∧ b'.isCalling = b.isCalling) ∨
      (b.isGranted = true ∧ b'.isGranted = false ∧ b'.isCalling = true) := by
  cases hmove with
  | failed hphase => simp [isGranted, isCalling, hphase, fail]
  | refused hphase =>
    rcases hphase with hphase | hphase
    · simp [isGranted, isCalling, hphase, giveUp]
    · simp [holdsSlot, hphase, giveUp] at hslot
  | queued => cases hwaiting'
  | granted hphase => simp [isWaiting, hphase] at hwaiting
  | left hphase => simp [isWaiting, hphase] at hwaiting
  | began hphase =>
    rcases hphase with hphase | hphase
    · simp [holdsSlot, hphase, begin] at hslot
    · simp [isGranted, isCalling, hphase, begin]
  | added hphase => simp [isGranted, isCalling, hphase]
  | closed hphase => simp [holdsSlot, hphase] at hslot
  | crashed hphase => simp [holdsSlot, hphase] at hslot

/-- Only who waits is granted a slot. -/
theorem Moves.isCalling_of_took {ctx : Context} {now : Nat} {b b' : Branch}
    (hmove : b.Moves ctx now b') (hwaiting : b.isWaiting = false) (hslot : b.holdsSlot = false)
    (hslot' : b'.holdsSlot = true) : b'.isGranted = false ∧ b'.isCalling = true := by
  cases hmove with
  | granted hphase => simp [isWaiting, hphase] at hwaiting
  | began => exact ⟨rfl, rfl⟩
  | added hphase => simp [holdsSlot, hphase] at hslot
  | _ => cases hslot'

theorem idle_of_not_holdsSlot {b : Branch} (h : b.holdsSlot = false) :
    b.isGranted = false ∧ b.isCalling = false := by
  rw [holdsSlot_eq, Bool.or_eq_false_iff] at h
  exact h

theorem idle_of_isWaiting {b : Branch} (h : b.isWaiting = true) :
    b.isGranted = false ∧ b.isCalling = false := by
  apply idle_of_not_holdsSlot
  rw [holdsSlot, isWaiting_iff.mp h]

end Branch

/-! ## Who is in a list when only one comes, stays or goes -/

section Members

variable {l : List Nat} {position : Nat} {was now : Bool}

theorem mem_iff_of_same (h : position ∈ l ↔ was = true) (hsame : now = was) (i : Nat) :
    i ∈ l ↔ if i = position then now = true else i ∈ l := by
  split
  · next hi => rw [hi, hsame, h]
  · rfl

theorem mem_append_iff_of_came (hcame : now = true) (i : Nat) :
    i ∈ l ++ [position] ↔ if i = position then now = true else i ∈ l := by
  rw [List.mem_append, List.mem_singleton]
  split
  · next hi => exact iff_of_true (.inr hi) hcame
  · next hi => exact or_iff_left hi

theorem mem_erase_iff_of_gone (hnodup : l.Nodup) (hgone : now = false) (i : Nat) :
    i ∈ l.erase position ↔ if i = position then now = true else i ∈ l := by
  rw [hnodup.mem_erase_iff]
  split
  · next hi => simp [hi, hgone]
  · next hi => exact and_iff_right hi

end Members

namespace Fleet

/-- A fleet whose pool is that of a desk: the branches that were granted a slot or call their agents
are those of the desk. -/
structure Uses (f : Fleet) (d : Desk) : Prop where
  pool : d.pool = f.pool
  granted : ∀ i, i ∈ d.granted ↔ ∃ b, f.branches[i]? = some b ∧ b.isGranted = true
  holding : ∀ i, i ∈ d.holding ↔ ∃ b, f.branches[i]? = some b ∧ b.isCalling = true

variable {ctx : Context} {f g : Fleet} {d : Desk} {position : Nat} {b b' : Branch}

namespace Uses

theorem start (registry : Registry) (workers : Nat) (references : List AgentReference) :
    (Fleet.start registry workers references).Uses (.opened workers) where
  pool := rfl
  granted := by
    intro i
    refine iff_of_false (List.not_mem_nil) ?_
    rintro ⟨b, hb, hgranted⟩
    rw [Fleet.start, List.getElem?_mapIdx] at hb
    obtain ⟨r, -, rfl⟩ := Option.map_eq_some_iff.mp hb
    cases hgranted
  holding := by
    intro i
    refine iff_of_false (List.not_mem_nil) ?_
    rintro ⟨b, hb, hcalling⟩
    rw [Fleet.start, List.getElem?_mapIdx] at hb
    obtain ⟨r, -, rfl⟩ := Option.map_eq_some_iff.mp hb
    cases hcalling

theorem mem_granted (h : f.Uses d) (hb : f.branches[position]? = some b) :
    position ∈ d.granted ↔ b.isGranted = true := by
  simp [h.granted, hb]

theorem mem_holding (h : f.Uses d) (hb : f.branches[position]? = some b) :
    position ∈ d.holding ↔ b.isCalling = true := by
  simp [h.holding, hb]

/-- The desk changes as a branch does. -/
theorem update {pool : Pool} {granted holding : List Nat} (h : f.Uses d)
    (hb : f.branches[position]? = some b)
    (hgranted : ∀ i, i ∈ granted ↔ if i = position then b'.isGranted = true else i ∈ d.granted)
    (hholding : ∀ i, i ∈ holding ↔ if i = position then b'.isCalling = true else i ∈ d.holding) :
    ({ f with pool := pool }.update position b').Uses { pool, granted, holding } := by
  have hlt : position < f.branches.length := (List.getElem?_eq_some_iff.mp hb).1
  have hset (P : Branch → Prop) (i : Nat) :
      (∃ x, (f.branches.set position b')[i]? = some x ∧ P x) ↔
        if i = position then P b' else ∃ x, f.branches[i]? = some x ∧ P x := by
    by_cases hi : i = position
    · subst hi
      simp [hlt]
    · rw [if_neg hi, List.getElem?_set_ne (Ne.symm hi)]
  constructor
  case pool => rfl
  case granted =>
    intro i
    refine (hgranted i).trans ((hset (fun x => x.isGranted = true) i).trans ?_).symm
    rw [h.granted]
  case holding =>
    intro i
    refine (hholding i).trans ((hset (fun x => x.isCalling = true) i).trans ?_).symm
    rw [h.holding]

/-- A slot that comes free is granted to the branch that waits the longest. -/
theorem release (h : f.Uses d) (horderly : f.Orderly 1) : f.release.Uses d.giveBack := by
  cases hwaiting : f.pool.waiting with
  | nil =>
    rw [release_nil hwaiting, Desk.giveBack_nil (by rw [h.pool, hwaiting]), h.pool]
    exact ⟨rfl, h.granted, h.holding⟩
  | cons first rest =>
    obtain ⟨x, hx, hxwaiting⟩ := (horderly.queue first).mp (by
      rw [hwaiting]
      exact List.mem_cons_self)
    rw [release_eq_update hwaiting hx, Desk.giveBack_cons (by rw [h.pool, hwaiting]), h.pool]
    have hidle := (Branch.idle_of_isWaiting hxwaiting).2
    exact h.update hx (mem_append_iff_of_came rfl) (mem_iff_of_same (h.mem_holding hx) hidle.symm)

theorem mem_line (h : f.Uses d) (horderly : f.Orderly 0) (hb : f.branches[position]? = some b) :
    position ∈ d.line ↔ b.isGranted = true ∨ b.isWaiting = true := by
  rw [Desk.line, List.mem_append, h.mem_granted hb, h.pool, horderly.queue, waits_iff hb]

/-- Whatever a branch does, the desk does by one attempt or by a slot that is given back. -/
theorem shift {n : Nat} (h : f.Uses d) (hdesk : d.Orderly n) (horderly : f.Orderly 0)
    (hb : f.branches[position]? = some b) (hmove : b.Moves ctx f.now b')
    (hshift : f.Shift position b b' g) : ∃ d', Desk.Reaches d d' ∧ g.Uses d' := by
  have hgranted := h.mem_granted hb
  have hholding := h.mem_holding hb
  have hline := h.mem_line horderly hb
  have hnodup : d.granted.Nodup := (List.nodup_append.mp hdesk.nodup).1
  cases hshift with
  | kept hwaiting hwaiting' hslot =>
    rcases hmove.kept_cases hwaiting hwaiting' hslot with ⟨hsame, hsame'⟩ | ⟨hg, hg', hc'⟩
    · refine ⟨{ d with pool := f.pool }, ?_, h.update hb (mem_iff_of_same hgranted hsame)
        (mem_iff_of_same hholding hsame')⟩
      rw [← h.pool]
      exact .refl
    · have hin : position ∈ d.granted := hgranted.mpr hg
      have hout : position ∉ d.holding := fun hmem =>
        hdesk.apart position hmem (List.mem_append_left _ hin)
      refine ⟨_, .single (.tookUp hin hout), ?_⟩
      rw [h.pool]
      exact h.update hb (mem_erase_iff_of_gone hnodup hg') (mem_append_iff_of_came hc')
  | joined hfull hwaiting hslot hwaiting' =>
    obtain ⟨hg, hc⟩ := Branch.idle_of_not_holdsSlot hslot
    obtain ⟨hg', hc'⟩ := Branch.idle_of_isWaiting hwaiting'
    have hout : position ∉ d.holding := by simp [hholding, hc]
    have hnew : position ∉ d.line := by simp [hline, hg, hwaiting]
    refine ⟨_, .single (.joined hnew hout (by rw [h.pool, hfull])), ?_⟩
    rw [h.pool]
    exact h.update hb (mem_iff_of_same hgranted (hg'.trans hg.symm))
      (mem_iff_of_same hholding (hc'.trans hc.symm))
  | left hwaiting hwaiting' hslot' =>
    obtain ⟨hg, hc⟩ := Branch.idle_of_isWaiting hwaiting
    obtain ⟨hg', hc'⟩ := Branch.idle_of_not_holdsSlot hslot'
    have hout : position ∉ d.holding := by simp [hholding, hc]
    have hnot : position ∉ d.granted := by simp [hgranted, hg]
    refine ⟨_, .single (.abandoned hout), ?_⟩
    rw [Desk.leave, if_neg hnot, h.pool]
    exact h.update hb (mem_iff_of_same hgranted (hg'.trans hg.symm))
      (mem_iff_of_same hholding (hc'.trans hc.symm))
  | @took free hfree hwaiting hslot hslot' =>
    obtain ⟨hg, hc⟩ := Branch.idle_of_not_holdsSlot hslot
    obtain ⟨hg', hc'⟩ := hmove.isCalling_of_took hwaiting hslot hslot'
    have hout : position ∉ d.holding := by simp [hholding, hc]
    have hnew : position ∉ d.line := by simp [hline, hg, hwaiting]
    refine ⟨_, .single (.took hnew hout (by rw [h.pool, hfree])), ?_⟩
    rw [h.pool]
    exact h.update hb (mem_iff_of_same hgranted (hg'.trans hg.symm)) (mem_append_iff_of_came hc')
  | gaveBack hslot hwaiting' hslot' =>
    obtain ⟨hg', hc'⟩ := Branch.idle_of_not_holdsSlot hslot'
    have hfreed := horderly.update_of_gaveBack hb hmove hslot hwaiting' hslot'
    rw [Branch.holdsSlot_eq, Bool.or_eq_true] at hslot
    by_cases hin : position ∈ d.granted
    · have hout : position ∉ d.holding := fun hmem =>
        hdesk.apart position hmem (List.mem_append_left _ hin)
      have hc : b.isCalling = false := by simpa [hholding] using hout
      refine ⟨_, .single (.abandoned hout), ?_⟩
      rw [Desk.leave, if_pos hin, h.pool]
      exact (h.update hb (mem_erase_iff_of_gone hnodup hg')
        (mem_iff_of_same hholding (hc'.trans hc.symm))).release hfreed
    · have hg : b.isGranted = false := by simpa [hgranted] using hin
      have hheld : position ∈ d.holding := hholding.mpr (hslot.resolve_left (by simp [hg]))
      refine ⟨_, .single (.released hheld), ?_⟩
      rw [Desk.release, h.pool]
      exact (h.update hb (mem_iff_of_same hgranted (hg'.trans hg.symm))
        (mem_erase_iff_of_gone hdesk.nodupHolding hc')).release hfreed

theorem withNow (h : f.Uses d) (tick : Nat) : Uses { f with now := tick } d :=
  ⟨h.pool, h.granted, h.holding⟩

end Uses

/-- However the branches of a run side by side act, what they do to the pool is what attempts do and
holders of slots, each with the number of a branch. -/
theorem Reaches.exists_desk {registry : Registry} {workers : Nat} {references : List AgentReference}
    (h : Reaches ctx (start registry workers references) f) :
    ∃ d, Desk.Reaches (.opened workers) d ∧ f.Uses d := by
  have hstart := orderly_start registry workers references
  induction h with
  | refl => exact ⟨_, .refl, Uses.start registry workers references⟩
  | tail hbefore hmove ih =>
    obtain ⟨d, hd, huses⟩ := ih
    have horderly := Reaches.orderly hbefore hstart
    obtain ⟨tick, position, b, b', -, -, hb, hmoves, hshift⟩ := hmove.shift horderly
    have hdesk := hd.orderly (Desk.orderly_opened workers)
    obtain ⟨d', hd', huses'⟩ :=
      (huses.withNow tick).shift hdesk (horderly.withNow tick) hb hmoves hshift
    exact ⟨d', hd.trans hd', huses'⟩

end Fleet

end Run

end Ensemble
