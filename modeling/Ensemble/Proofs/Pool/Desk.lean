import Ensemble.Pool
import Ensemble.Proofs.Clock
import Mathlib.Data.List.Nodup
import Mathlib.Logic.Relation

/-!
A pool with all who use it.  Attempts to get a slot come, wait and go in any order, each with
signals of its own, and slots are given back at any time.  A slot that comes free is granted to the
first who waits, who has yet to take it up and may be interrupted before.  However that goes, no
slot is lost and none is made up, and who leaves without a slot leaves everything as if it had never
come.
-/

namespace Ensemble

/-! ## An attempt while nobody gives a slot back -/

namespace Pool

variable {p : Pool} {who : Nat} {signals : Signals}

theorem abandon_of_not_mem (h : who ∉ p.waiting) : p.abandon who = p := by
  rw [abandon, List.filter_eq_self.mpr]
  intro x hx
  have hne : x ≠ who := fun heq => h (heq ▸ hx)
  exact decide_eq_true hne

/-- Who comes last and leaves again changes nothing. -/
theorem abandon_last (h : who ∉ p.waiting) :
    abandon { p with waiting := p.waiting ++ [who] } who = p := by
  have hwaiting : (p.waiting ++ [who]).filter (· ≠ who) = (p.abandon who).waiting := by
    rw [List.filter_append, abandon]
    simp
  rw [abandon, hwaiting, abandon_of_not_mem h]

theorem acquireWithin_of_interrupt {i : Interrupt} (h : signals.interrupt? 0 = some i)
    (patience : Nat) :
    p.acquireWithin who signals patience = (p, .refused (.ofInterrupt i) 0) := by
  simp [acquireWithin, acquire, h]

theorem acquireWithin_of_free {free : Nat} (h : signals.interrupt? 0 = none)
    (hfree : p.free = free + 1) (patience : Nat) :
    p.acquireWithin who signals patience = ({ p with free }, .acquired) := by
  simp [acquireWithin, acquire, h, hfree]

theorem acquireWithin_of_full (h : signals.interrupt? 0 = none) (hfree : p.free = 0)
    (hwho : who ∉ p.waiting) (patience : Nat) :
    p.acquireWithin who signals patience =
      (p, (signals.firstBy? patience).elim .gaveUp fun next =>
        .refused (.ofInterrupt next.2) next.1) := by
  have hback := abandon_last hwho
  rw [hfree] at hback
  simp only [acquireWithin, acquire, h, hfree, hback]
  cases signals.firstBy? patience <;> rfl

/-- Either one free slot is taken or the pool is left as it was. -/
theorem acquireWithin_cases (hwho : who ∉ p.waiting) (signals : Signals) (patience : Nat) :
    (∃ free, p.free = free + 1 ∧
      p.acquireWithin who signals patience = ({ p with free }, .acquired)) ∨
    ∃ wait, wait ≠ .acquired ∧ p.acquireWithin who signals patience = (p, wait) := by
  cases hcalm : signals.interrupt? 0 with
  | some i =>
    refine .inr ⟨.refused (.ofInterrupt i) 0, nofun, ?_⟩
    exact acquireWithin_of_interrupt hcalm patience
  | none =>
    cases hfree : p.free with
    | succ free => exact .inl ⟨free, rfl, acquireWithin_of_free hcalm hfree patience⟩
    | zero =>
      refine .inr ⟨_, ?_, acquireWithin_of_full hcalm hfree hwho patience⟩
      cases signals.firstBy? patience <;> nofun

end Pool

/-! ## All who use a pool -/

structure Desk where
  pool : Pool
  -- Who was granted a slot while waiting and has not taken it up yet, the first one first.
  granted : List Nat := []
  holding : List Nat := []
  deriving DecidableEq

namespace Desk

def opened (n : Nat) : Desk :=
  { pool := .ofSize n }

/-- Who has asked for a slot and has neither taken one up nor left, the first comer first. -/
def line (d : Desk) : List Nat :=
  d.granted ++ d.pool.waiting

/-- Gives a slot back; the first who waits is granted it. -/
def giveBack (d : Desk) : Desk :=
  match d.pool.release with
  | (pool, none) => { d with pool }
  | (pool, some first) => { d with pool, granted := d.granted ++ [first] }

def ask (d : Desk) (who : Nat) (interrupt : Option Interrupt) : Desk × Pool.Answer :=
  match d.pool.acquire who interrupt with
  | (pool, .acquired) => ({ d with pool, holding := d.holding ++ [who] }, .acquired)
  | (pool, answer) => ({ d with pool }, answer)

/-- Leaves without a slot.  One that was granted meanwhile is given back. -/
def leave (d : Desk) (who : Nat) : Desk :=
  if who ∈ d.granted then giveBack { d with granted := d.granted.erase who }
  else { d with pool := d.pool.abandon who }

/-- Takes up the slot if it has been granted, unless something interrupts. -/
def resume (d : Desk) (who : Nat) (interrupt : Option Interrupt) : Desk × Pool.Answer :=
  match interrupt with
  | some i => (d.leave who, .refused (.ofInterrupt i))
  | none =>
    if who ∈ d.granted then
      ({ d with granted := d.granted.erase who, holding := d.holding ++ [who] }, .acquired)
    else (d, .queued)

/-- One turn of an attempt to get a slot: the first one asks for it. -/
def poll (d : Desk) (who : Nat) (interrupt : Option Interrupt) : Desk × Pool.Answer :=
  if who ∈ d.line then d.resume who interrupt else d.ask who interrupt

def release (d : Desk) (who : Nat) : Desk :=
  giveBack { d with holding := d.holding.erase who }

/-- What may happen next: an attempt takes a turn at some tick or is given up, or a slot that is
held is given back. -/
inductive Step (d : Desk) : Desk → Prop
  | polled {who : Nat} (signals : Signals) (now : Nat) (hwho : who ∉ d.holding) :
      Step d (d.poll who (signals.interrupt? now)).1
  | abandoned {who : Nat} (hwho : who ∉ d.holding) : Step d (d.leave who)
  | released {who : Nat} (hwho : who ∈ d.holding) : Step d (d.release who)

def Reaches : Desk → Desk → Prop :=
  Relation.ReflTransGen Step

/-! ## Slots that are given back -/

section GiveBack

variable {d : Desk}

theorem giveBack_nil (h : d.pool.waiting = []) :
    d.giveBack = { d with pool := { d.pool with free := d.pool.free + 1 } } := by
  unfold giveBack Pool.release
  simp only [h]

theorem giveBack_cons {first : Nat} {rest : List Nat} (h : d.pool.waiting = first :: rest) :
    d.giveBack =
      { d with pool := { d.pool with waiting := rest }, granted := d.granted ++ [first] } := by
  unfold giveBack Pool.release
  simp only [h]

theorem size_giveBack (d : Desk) : d.giveBack.pool.size = d.pool.size := by
  cases h : d.pool.waiting with
  | nil => rw [giveBack_nil h]
  | cons first rest => rw [giveBack_cons h]

theorem holding_giveBack (d : Desk) : d.giveBack.holding = d.holding := by
  cases h : d.pool.waiting with
  | nil => rw [giveBack_nil h]
  | cons first rest => rw [giveBack_cons h]

/-- Whoever is granted a slot keeps its place in the line. -/
theorem line_giveBack (d : Desk) : d.giveBack.line = d.line := by
  cases h : d.pool.waiting with
  | nil =>
    rw [giveBack_nil h]
    rfl
  | cons first rest =>
    rw [giveBack_cons h, line, line, h, List.append_cons d.granted first rest]

theorem slots_giveBack (d : Desk) :
    d.giveBack.pool.free + d.giveBack.granted.length = d.pool.free + d.granted.length + 1 := by
  cases h : d.pool.waiting with
  | nil =>
    rw [giveBack_nil h]
    dsimp only
    omega
  | cons first rest =>
    rw [giveBack_cons h, List.length_append, List.length_singleton]
    rfl

theorem prefix_giveBack (d : Desk) : d.granted <+: d.giveBack.granted := by
  cases h : d.pool.waiting with
  | nil =>
    have hsame : d.giveBack.granted = d.granted := by rw [giveBack_nil h]
    exact hsame ▸ List.prefix_refl _
  | cons first rest =>
    rw [giveBack_cons h]
    exact List.prefix_append _ _

theorem eager_giveBack (h : d.pool.free = 0 ∨ d.pool.waiting = []) :
    d.giveBack.pool.free = 0 ∨ d.giveBack.pool.waiting = [] := by
  cases hwaiting : d.pool.waiting with
  | nil =>
    rw [giveBack_nil hwaiting]
    exact .inr hwaiting
  | cons first rest =>
    rw [giveBack_cons hwaiting]
    exact .inl (h.resolve_right (by rw [hwaiting]; exact List.cons_ne_nil _ _))

end GiveBack

section Ask

variable {d : Desk} {who : Nat}

theorem ask_full (h : d.pool.free = 0) :
    d.ask who none =
      ({ d with pool := { d.pool with waiting := d.pool.waiting ++ [who] } }, .queued) := by
  unfold ask Pool.acquire
  simp [h]

theorem ask_free {free : Nat} (h : d.pool.free = free + 1) :
    d.ask who none =
      ({ d with pool := { d.pool with free }, holding := d.holding ++ [who] }, .acquired) := by
  unfold ask Pool.acquire
  simp [h]

end Ask

/-! ## What stays true -/

/-- A desk whose pool counts right: every slot is free, granted or held, none is free while somebody
waits, and nobody stands in line twice or with a slot. -/
structure Orderly (n : Nat) (d : Desk) : Prop where
  size : d.pool.size = max n 1
  balance : d.pool.free + (d.granted.length + d.holding.length) = max n 1
  eager : d.pool.free = 0 ∨ d.pool.waiting = []
  nodup : d.line.Nodup
  nodupHolding : d.holding.Nodup
  apart : ∀ who ∈ d.holding, who ∉ d.line

theorem orderly_opened (n : Nat) : (opened n).Orderly n where
  size := rfl
  balance := rfl
  eager := .inr rfl
  nodup := List.nodup_nil
  nodupHolding := List.nodup_nil
  apart := nofun

/-- What is left when somebody leaves without a slot: the others stand in line as before, and as
many slots as before are free or granted; no grant is lost, and only one that goes back moves on. -/
structure Spared (who : Nat) (d d' : Desk) : Prop where
  size : d'.pool.size = d.pool.size
  holding : d'.holding = d.holding
  line : d'.line = d.line.erase who
  slots : d'.pool.free + d'.granted.length = d.pool.free + d.granted.length
  granted : d.granted.erase who <+: d'.granted
  untouched : who ∉ d.granted → d'.granted = d.granted ∧ d'.pool.free = d.pool.free

variable {d : Desk} {n who : Nat}

theorem Orderly.spared_leave (h : d.Orderly n) (who : Nat) : d.Spared who (d.leave who) := by
  unfold leave
  split
  · next hgranted =>
    have hlength : (d.granted.erase who).length + 1 = d.granted.length :=
      List.length_erase_add_one hgranted
    have hslots := slots_giveBack { d with granted := d.granted.erase who }
    constructor
    case size => exact size_giveBack _
    case holding => exact holding_giveBack _
    case line =>
      rw [line_giveBack, line, line, List.erase_append_left _ hgranted]
    case slots =>
      dsimp only at hslots
      omega
    case granted => exact prefix_giveBack { d with granted := d.granted.erase who }
    case untouched => exact fun hnot => absurd hgranted hnot
  · next hnot =>
    have hwaiting : d.pool.waiting.Nodup := (List.nodup_append.mp h.nodup).2.1
    have hfilter : d.pool.waiting.filter (· ≠ who) = d.pool.waiting.erase who := by
      rw [hwaiting.erase_eq_filter]
      exact List.filter_congr fun x _ => by by_cases hx : x = who <;> simp [hx]
    constructor
    case size => rfl
    case holding => rfl
    case line => rw [line, line, Pool.abandon, hfilter, List.erase_append_right _ hnot]
    case slots => rfl
    case granted =>
      exact (List.erase_of_not_mem hnot).symm ▸ List.prefix_refl _
    case untouched => exact fun _ => ⟨rfl, rfl⟩

theorem eager_leave (h : d.pool.free = 0 ∨ d.pool.waiting = []) (who : Nat) :
    (d.leave who).pool.free = 0 ∨ (d.leave who).pool.waiting = [] := by
  unfold leave
  split
  · exact eager_giveBack h
  · refine h.imp_right fun hnil => ?_
    rw [Pool.abandon, hnil, List.filter_nil]

namespace Orderly

theorem leave (h : d.Orderly n) (who : Nat) : (d.leave who).Orderly n := by
  have hspared := h.spared_leave who
  have hbalance := h.balance
  have hslots := hspared.slots
  constructor
  case size => rw [hspared.size, h.size]
  case balance =>
    rw [hspared.holding]
    omega
  case eager => exact eager_leave h.eager who
  case nodup =>
    rw [hspared.line]
    exact h.nodup.erase who
  case nodupHolding =>
    rw [hspared.holding]
    exact h.nodupHolding
  case apart =>
    intro x hx
    rw [hspared.line]
    rw [hspared.holding] at hx
    exact fun hmem => h.apart x hx (List.mem_of_mem_erase hmem)

theorem release (h : d.Orderly n) (hwho : who ∈ d.holding) : (d.release who).Orderly n := by
  have hlength : (d.holding.erase who).length + 1 = d.holding.length :=
    List.length_erase_add_one hwho
  have hslots := slots_giveBack { d with holding := d.holding.erase who }
  have hbalance := h.balance
  constructor
  case size => exact (size_giveBack _).trans h.size
  case balance =>
    rw [Desk.release, holding_giveBack]
    dsimp only at hslots ⊢
    omega
  case eager => exact eager_giveBack h.eager
  case nodup =>
    rw [Desk.release, line_giveBack]
    exact h.nodup
  case nodupHolding =>
    rw [Desk.release, holding_giveBack]
    exact h.nodupHolding.erase who
  case apart =>
    intro x hx
    rw [Desk.release, holding_giveBack] at hx
    rw [Desk.release, line_giveBack]
    exact h.apart x (List.mem_of_mem_erase hx)

/-- Who finds no free slot is the last in line. -/
theorem join (h : d.Orderly n) (hheld : who ∉ d.holding) (hline : who ∉ d.line)
    (hfree : d.pool.free = 0) :
    Orderly n { d with pool := { d.pool with waiting := d.pool.waiting ++ [who] } } := by
  have hjoined : d.granted ++ (d.pool.waiting ++ [who]) = d.line ++ [who] :=
    (List.append_assoc _ _ _).symm
  refine { h with eager := .inl hfree, nodup := ?_, apart := ?_ }
  · show (d.granted ++ (d.pool.waiting ++ [who])).Nodup
    rw [hjoined, ← List.concat_eq_append]
    exact h.nodup.concat hline
  · intro x hx
    show x ∉ d.granted ++ (d.pool.waiting ++ [who])
    rw [hjoined, List.mem_append, List.mem_singleton]
    rintro (hmem | rfl)
    · exact h.apart x hx hmem
    · exact hheld hx

theorem take (h : d.Orderly n) (hheld : who ∉ d.holding) (hline : who ∉ d.line) {free : Nat}
    (hfree : d.pool.free = free + 1) :
    Orderly n { d with pool := { d.pool with free }, holding := d.holding ++ [who] } := by
  have hbalance := h.balance
  refine { h with balance := ?_, eager := ?_, nodupHolding := ?_, apart := ?_ }
  · dsimp only
    rw [List.length_append, List.length_singleton]
    omega
  · exact .inr (h.eager.resolve_left (by omega))
  · rw [← List.concat_eq_append]
    exact h.nodupHolding.concat hheld
  · intro x hx
    rcases List.mem_append.mp hx with hx | hx
    · exact h.apart x hx
    · rw [List.mem_singleton.mp hx]
      exact hline

theorem ask (h : d.Orderly n) (hheld : who ∉ d.holding) (hline : who ∉ d.line)
    (interrupt : Option Interrupt) : (d.ask who interrupt).1.Orderly n := by
  cases interrupt with
  | some i => exact h
  | none =>
    cases hfree : d.pool.free with
    | zero =>
      rw [ask_full hfree]
      exact h.join hheld hline hfree
    | succ free =>
      rw [ask_free hfree]
      exact h.take hheld hline hfree

/-- Who takes up a slot stands in line no longer. -/
theorem takeUp (h : d.Orderly n) (hgranted : who ∈ d.granted) :
    Orderly n { d with granted := d.granted.erase who, holding := d.holding ++ [who] } := by
  have hlength : (d.granted.erase who).length + 1 = d.granted.length :=
    List.length_erase_add_one hgranted
  have hbalance := h.balance
  have hline : d.granted.erase who ++ d.pool.waiting = d.line.erase who :=
    (List.erase_append_left _ hgranted).symm
  have hheld : who ∉ d.holding := fun hmem => h.apart who hmem (List.mem_append_left _ hgranted)
  refine { h with balance := ?_, nodup := ?_, nodupHolding := ?_, apart := ?_ }
  · dsimp only
    rw [List.length_append, List.length_singleton]
    omega
  · show (d.granted.erase who ++ d.pool.waiting).Nodup
    rw [hline]
    exact h.nodup.erase who
  · rw [← List.concat_eq_append]
    exact h.nodupHolding.concat hheld
  · intro x hx
    show x ∉ d.granted.erase who ++ d.pool.waiting
    rw [hline, h.nodup.mem_erase_iff]
    rintro ⟨hne, hmem⟩
    rcases List.mem_append.mp hx with hx | hx
    · exact h.apart x hx hmem
    · exact hne (List.mem_singleton.mp hx)

theorem poll (h : d.Orderly n) (hheld : who ∉ d.holding) (interrupt : Option Interrupt) :
    (d.poll who interrupt).1.Orderly n := by
  unfold Desk.poll
  split
  · unfold resume
    cases interrupt with
    | some i => exact h.leave who
    | none =>
      dsimp only
      split
      · next hgranted => exact h.takeUp hgranted
      · exact h
  · next hline => exact h.ask hheld hline interrupt

theorem step {d' : Desk} (h : d.Orderly n) (hstep : d.Step d') : d'.Orderly n := by
  cases hstep with
  | polled signals now hwho => exact h.poll hwho _
  | abandoned hwho => exact h.leave _
  | released hwho => exact h.release hwho

end Orderly

theorem Reaches.orderly {d' : Desk} (h : Reaches d d') (horderly : d.Orderly n) :
    d'.Orderly n := by
  induction h with
  | refl => exact horderly
  | tail _ hstep ih => exact ih.step hstep

/-! ## Who leaves without a slot -/

/-- The line and who holds a slot say all there is to say: those who came first have been granted
what is not held, and what is left over is free. -/
theorem Orderly.eq_of_line {e : Desk} (h : d.Orderly n) (he : e.Orderly n)
    (hline : e.line = d.line) (hholding : e.holding = d.holding) : e = d := by
  have hlength (d : Desk) : d.line.length = d.granted.length + d.pool.waiting.length :=
    List.length_append
  have hnil {l : List Nat} (hl : l = []) : l.length = 0 := by rw [hl, List.length_nil]
  have hsame : e.granted.length = d.granted.length ∧ e.pool.free = d.pool.free := by
    have hd := hlength d
    have hlen := hlength e
    rw [hline] at hlen
    have hbalance := h.balance
    have hbalance' := he.balance
    rw [hholding] at hbalance'
    rcases h.eager.imp_right hnil with hfull | hempty <;>
      rcases he.eager.imp_right hnil with hfull' | hempty' <;> constructor <;> omega
  obtain ⟨hgranted, hwaiting⟩ := List.append_inj hline hsame.1
  have hfree := hsame.2
  have hsize := he.size.trans h.size.symm
  obtain ⟨⟨size, free, waiting⟩, granted, holding⟩ := d
  obtain ⟨⟨size', free', waiting'⟩, granted', holding'⟩ := e
  dsimp only at hgranted hwaiting hfree hsize hholding
  rw [hgranted, hwaiting, hfree, hsize, hholding]

theorem leave_of_not_mem_line (hline : who ∉ d.line) : d.leave who = d := by
  rw [line, List.mem_append, not_or] at hline
  rw [leave, if_neg hline.1, Pool.abandon_of_not_mem hline.2]

/-- Whatever interrupts ends the attempt, even if a slot is free or has been granted. -/
theorem poll_interrupted (d : Desk) (who : Nat) (i : Interrupt) :
    d.poll who (some i) = (d.leave who, .refused (.ofInterrupt i)) := by
  unfold poll
  split
  · rfl
  · next hline =>
    rw [leave_of_not_mem_line hline]
    rfl

theorem not_refused_of_calm (d : Desk) (who : Nat) (why : Pool.Refusal) :
    (d.poll who none).2 ≠ .refused why := by
  unfold poll
  split
  · unfold resume
    dsimp only
    split <;> nofun
  · cases hfree : d.pool.free with
    | zero =>
      rw [ask_full hfree]
      nofun
    | succ free =>
      rw [ask_free hfree]
      nofun

theorem line_release (d : Desk) (who : Nat) : (d.release who).line = d.line :=
  line_giveBack _

theorem holding_release (d : Desk) (who : Nat) : (d.release who).holding = d.holding.erase who :=
  holding_giveBack _

/-- A slot that comes free while somebody leaves goes the same way, whichever is first. -/
theorem Orderly.leave_release {x : Nat} (h : d.Orderly n) (hx : x ∈ d.holding) (who : Nat) :
    (d.release x).leave who = (d.leave who).release x := by
  have hspared := h.spared_leave who
  have hspared' := (h.release hx).spared_leave who
  have hheld : x ∈ (d.leave who).holding := by
    rw [hspared.holding]
    exact hx
  refine ((h.leave who).release hheld).eq_of_line ((h.release hx).leave who) ?_ ?_
  · rw [hspared'.line, line_release, line_release, hspared.line]
  · rw [hspared'.holding, holding_release, holding_release, hspared.holding]

/-- Leaving without a slot is as good as never having come: the desk is then the one that any other
course of events would have led to with the others in line and those who hold a slot, and a slot
that comes free at the same moment goes the same way. -/
structure Forgets (n : Nat) (d : Desk) (who : Nat) : Prop where
  spared : d.Spared who (d.leave who)
  gone : who ∉ (d.leave who).line
  same : ∀ e, Reaches (opened n) e → e.line = d.line.erase who → e.holding = d.holding →
    d.leave who = e
  swap : ∀ x ∈ d.holding, (d.release x).leave who = (d.leave who).release x

theorem Orderly.forgets (h : d.Orderly n) (who : Nat) : d.Forgets n who where
  spared := h.spared_leave who
  gone := by
    rw [(h.spared_leave who).line]
    exact h.nodup.not_mem_erase
  same := by
    intro e he hline hholding
    have hspared := h.spared_leave who
    apply (he.orderly (orderly_opened n)).eq_of_line (h.leave who)
    · rw [hspared.line, hline]
    · rw [hspared.holding, hholding]
  swap := fun _ hx => h.leave_release hx who

/-- No slot is lost or made up, whatever attempts are made and in whatever order slots are given
back.  Who is refused or gives up leaves everything as if it had never come; a cancellation refuses
whoever asks, and so does a deadline that has passed unless there is a cancellation. -/
theorem slots_accounted {n : Nat} {d : Desk} (h : Reaches (opened n) d) :
    (d.pool.free + (d.granted.length + d.holding.length) = max n 1 ∧
      (d.pool.free = 0 ∨ d.pool.waiting = [])) ∧
    (∀ who, d.Forgets n who ∧ ∀ (signals : Signals) (now : Nat),
      (∀ why d', d.poll who (signals.interrupt? now) = (d', .refused why) → d' = d.leave who) ∧
      (signals.isCancelled now = true →
        (d.poll who (signals.interrupt? now)).2 = .refused .cancelled) ∧
      (signals.isCancelled now = false → signals.deadlinePassed now = true →
        (d.poll who (signals.interrupt? now)).2 = .refused .deadlineExceeded)) ∧
    ∀ who, who ∉ d.line → ∀ signals patience,
      (∃ free, d.pool.free = free + 1 ∧
        d.pool.acquireWithin who signals patience = ({ d.pool with free }, .acquired)) ∨
      ∃ wait, wait ≠ .acquired ∧ d.pool.acquireWithin who signals patience = (d.pool, wait) := by
  have horderly := h.orderly (orderly_opened n)
  refine ⟨⟨horderly.balance, horderly.eager⟩, fun who => ⟨horderly.forgets who, ?_⟩, ?_⟩
  · intro signals now
    refine ⟨fun why d' hrefused => ?_, fun hcancelled => ?_, fun hopen hpassed => ?_⟩
    · cases hwhy : signals.interrupt? now with
      | none =>
        rw [hwhy] at hrefused
        exact absurd (congrArg Prod.snd hrefused) (not_refused_of_calm d who why)
      | some i =>
        rw [hwhy, poll_interrupted] at hrefused
        exact (congrArg Prod.fst hrefused).symm
    · rw [Signals.interrupt?_eq_cancelled_iff.mpr hcancelled, poll_interrupted]
      rfl
    · rw [Signals.interrupt?_eq_deadline_iff.mpr ⟨hopen, hpassed⟩, poll_interrupted]
      rfl
  · intro who hline signals patience
    have hwho : who ∉ d.pool.waiting := fun hmem => hline (List.mem_append_right _ hmem)
    exact Pool.acquireWithin_cases hwho signals patience

/-- A slot comes free for the second attempt just when its deadline passes: the slot goes on to the
third, as if the second had never come. -/
theorem slots_accounted_passed_on :
    let late : Signals := { deadline := some 5000000 }
    let d : Desk := { pool := { size := 1, free := 0, waiting := [3] }, granted := [2] }
    let d' : Desk := { pool := { size := 1, free := 0 }, granted := [3] }
    Reaches (opened 0) d ∧ d.poll 2 (late.interrupt? 5) = (d', .refused .deadlineExceeded) ∧
      d.leave 2 = d' ∧ d.Forgets 0 2 ∧
        d.pool.free + (d.granted.length + d.holding.length) = 1 := by
  intro late d d'
  let calm : Signals := {}
  let held : Desk := { pool := { size := 1, free := 0 }, holding := [1] }
  let queue : Desk := { pool := { size := 1, free := 0, waiting := [2] }, holding := [1] }
  let full : Desk := { pool := { size := 1, free := 0, waiting := [2, 3] }, holding := [1] }
  have hfirst : Step (opened 0) held := .polled calm 0 (by decide : 1 ∉ (opened 0).holding)
  have hsecond : Step held queue := .polled late 0 (by decide : 2 ∉ held.holding)
  have hthird : Step queue full := .polled calm 0 (by decide : 3 ∉ queue.holding)
  have hgranted : Step full d := .released (by decide : 1 ∈ full.holding)
  have hreach : Reaches (opened 0) d :=
    (((Relation.ReflTransGen.single hfirst).tail hsecond).tail hthird).tail hgranted
  obtain ⟨⟨hbalance, -⟩, hleave, -⟩ := slots_accounted hreach
  have hpoll : d.poll 2 (late.interrupt? 5) = (d', .refused .deadlineExceeded) := by decide
  have hsame : d' = d.leave 2 := ((hleave 2).2 late 5).1 _ _ hpoll
  exact ⟨hreach, hpoll, hsame.symm, (hleave 2).1, hbalance⟩

end Desk

end Ensemble
