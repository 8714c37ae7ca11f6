import Ensemble.Clock

/-!
A pool of worker slots.  A slot is held until it is given back; whoever finds no free slot waits,
and slots go to those who wait in the order in which they came.
-/

namespace Ensemble

inductive Pool.Refusal where
  | cancelled
  | deadlineExceeded
  deriving DecidableEq

def Pool.Refusal.message : Pool.Refusal → String
  | .cancelled => "Run was cancelled while waiting for a worker slot"
  | .deadlineExceeded => "Run deadline passed while waiting for a worker slot"

def Pool.Refusal.ofInterrupt : Interrupt → Pool.Refusal
  | .cancelled => .cancelled
  | .deadline => .deadlineExceeded

structure Pool where
  size : Nat
  free : Nat
  -- Who waits for a slot, the first comer first.
  waiting : List Nat := []
  deriving DecidableEq

namespace Pool

/-- A pool has at least one slot. -/
def ofSize (n : Nat) : Pool :=
  { size := max n 1, free := max n 1 }

inductive Answer where
  | acquired
  | queued
  | refused (r : Refusal)
  deriving DecidableEq

/-- Asks for a slot.  An interrupt that is there already wins over a free slot. -/
def acquire (p : Pool) (who : Nat) (interrupt : Option Interrupt) : Pool × Answer :=
  match interrupt with
  | some i => (p, .refused (.ofInterrupt i))
  | none =>
    match p.free with
    | 0 => ({ p with waiting := p.waiting ++ [who] }, .queued)
    | n + 1 => ({ p with free := n }, .acquired)

def abandon (p : Pool) (who : Nat) : Pool :=
  { p with waiting := p.waiting.filter (· ≠ who) }

/-- Gives a slot back.  It goes straight to the first who waits, who is returned. -/
def release (p : Pool) : Pool × Option Nat :=
  match p.waiting with
  | [] => ({ p with free := p.free + 1 }, none)
  | who :: rest => ({ p with waiting := rest }, some who)

inductive Wait where
  | acquired
  | refused (r : Refusal) (after : Nat)
  | gaveUp
  deriving DecidableEq

/-- Asks for a slot and waits for it, though nobody gives one back: until something interrupts, or
at most for so many ticks. -/
def acquireWithin (p : Pool) (who : Nat) (signals : Signals) (patience : Nat) : Pool × Wait :=
  match p.acquire who (signals.interrupt? 0) with
  | (p, .acquired) => (p, .acquired)
  | (p, .refused r) => (p, .refused r 0)
  | (p, .queued) =>
    match signals.firstBy? patience with
    | some (tick, i) => (p.abandon who, .refused (.ofInterrupt i) tick)
    | none => (p.abandon who, .gaveUp)

end Pool

end Ensemble
