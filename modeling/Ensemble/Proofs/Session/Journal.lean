import Ensemble.Proofs.Ordered
import Ensemble.Session.Operation
import Mathlib.Algebra.GroupWithZero.Nat
import Mathlib.Data.List.Induction

/-!
A journal as plain lists.  All that matters of a journal is the list of drafts that were added to
it, in order, and how many of them there were when its feed was last read: every session is the part
of that list that was added to it, numbered from 1, and the feed is the whole list.
-/

namespace Ensemble

/-! ## Room for a power of two -/

namespace Feed

theorem roundUp_isPowerOfTwo (n : Nat) : (roundUp n).isPowerOfTwo := by
  unfold roundUp
  split
  · exact ⟨0, rfl⟩
  · exact ⟨_, rfl⟩

theorem le_roundUp (n : Nat) : n ≤ roundUp n := by
  unfold roundUp
  split
  · assumption
  · have hlt : n - 1 < Nat.pow 2 ((n - 1).log2 + 1) := Nat.lt_log2_self
    omega

/-- No smaller power of two would do. -/
theorem roundUp_le_two_pow {n k : Nat} (h : n ≤ 2 ^ k) : roundUp n ≤ 2 ^ k := by
  unfold roundUp
  split
  · exact Nat.one_le_two_pow
  · have hlt : (n - 1).log2 < k := (Nat.log2_lt (by omega)).mpr (by omega)
    exact Nat.pow_le_pow_right (by decide) hlt

example : (List.range 10).map roundUp = [1, 1, 2, 4, 4, 8, 8, 8, 8, 16] := by decide

theorem roundUp_pos (n : Nat) : 0 < roundUp n := by
  unfold roundUp
  split
  · exact Nat.one_pos
  · exact Nat.two_pow_pos _

end Feed

/-! ## What was added -/

/-- A draft, and the session and the tick to which it was added. -/
structure Write where
  sessionId : String
  tick : Nat
  draft : EventDraft

namespace Write

/-- What was added to one session. -/
def toSession (id : String) (ws : List Write) : List Write :=
  ws.filter fun w => w.sessionId = id

def event (w : Write) (sequence : Nat) : Event :=
  { sequence, timestamp := .ofTick w.tick, draft := w.draft }

/-- The events of a session: what was added to it, numbered from 1. -/
def eventsOf (id : String) (ws : List Write) : List Event :=
  (toSession id ws).mapIdx fun k w => w.event (k + 1)

/-- The events of all sessions in the order in which they were added, each under its session. -/
def tagged (ws : List Write) : List RunEvent :=
  ws.mapIdx fun k w => ⟨w.sessionId, w.event ((toSession w.sessionId (ws.take k)).length + 1)⟩

variable (ws : List Write) (w : Write)

theorem toSession_concat (id : String) :
    toSession id (ws ++ [w]) = if w.sessionId = id then toSession id ws ++ [w] else toSession id ws := by
  rw [toSession, List.filter_append, List.filter_singleton]
  by_cases h : w.sessionId = id
  · simp [h, toSession]
  · simp [h, toSession]

theorem eventsOf_concat (id : String) :
    eventsOf id (ws ++ [w]) =
      if w.sessionId = id then eventsOf id ws ++ [w.event ((toSession id ws).length + 1)]
      else eventsOf id ws := by
  rw [eventsOf, toSession_concat]
  split
  · rw [List.mapIdx_concat, eventsOf]
  · rfl

theorem length_eventsOf (id : String) : (eventsOf id ws).length = (toSession id ws).length :=
  List.length_mapIdx

@[simp] theorem length_tagged : (tagged ws).length = ws.length :=
  List.length_mapIdx

theorem tagged_concat :
    tagged (ws ++ [w]) =
      tagged ws ++ [⟨w.sessionId, w.event ((toSession w.sessionId ws).length + 1)⟩] := by
  rw [tagged, List.mapIdx_concat, List.take_left]
  congr 1
  -- the events before see the same part of the list as they did
  refine List.mapIdx_eq_mapIdx_iff.mpr fun k hk => ?_
  rw [List.take_append_of_le_length (Nat.le_of_lt hk)]

theorem sequence_le_of_mem_tagged {e : RunEvent} (h : e ∈ tagged ws) :
    e.event.sequence ≤ (toSession e.sessionId ws).length := by
  induction ws using List.reverseRecOn with
  | nil => cases h
  | append_singleton ws w ih =>
    rw [tagged_concat, List.mem_append, List.mem_singleton] at h
    rw [toSession_concat]
    rcases h with h | rfl
    · have hle := ih h
      split
      · rw [List.length_append]
        omega
      · exact hle
    · rw [if_pos rfl, List.length_append]
      exact Nat.le_refl _

/-- No two events have the same number in the same session. -/
theorem nodup_tagged : (tagged ws).Nodup := by
  induction ws using List.reverseRecOn with
  | nil => exact List.nodup_nil
  | append_singleton ws w ih =>
    rw [tagged_concat, ← List.concat_eq_append]
    refine ih.concat fun hmem => ?_
    have hle := sequence_le_of_mem_tagged ws hmem
    simp only [event] at hle
    omega

end Write

namespace Journal

/-! ## The plain lists -/

/-- What was added to a journal, and how much of it before its feed was last read. -/
structure Plain where
  writes : List Write := []
  readBefore : Nat := 0

namespace Plain

/-- The events that have come to the feed since it was last read. -/
def fresh (p : Plain) : List RunEvent :=
  (Write.tagged p.writes).drop p.readBefore

/-- The answers of lists, when a feed has so much room. -/
def answer (p : Plain) (room : Nat) : Operation → Answer
  | .append id _ _ => .added ((Write.toSession id p.writes).length + 1)
  | .snapshot id => .events (Write.eventsOf id p.writes)
  | .length id => .length (Write.toSession id p.writes).length
  | .lastFinal id =>
    .event ((Write.eventsOf id p.writes).filter fun e => !e.draft.isPartial).getLast?
  | .drain =>
    let k := p.fresh.length
    .delivered (p.fresh.drop (k - min room k)) (k - min room k)

def after (p : Plain) : Operation → Plain
  | .append id now d => { p with writes := p.writes ++ [⟨id, now, d⟩] }
  | .drain => { p with readBefore := p.writes.length }
  | _ => p

def perform (p : Plain) (ops : List Operation) : Plain :=
  ops.foldl after p

def answers (p : Plain) (room : Nat) : List Operation → List Answer
  | [] => []
  | op :: ops => p.answer room op :: (p.after op).answers room ops

end Plain

end Journal

/-! ## The feed -/

namespace Feed

/-- A feed that holds the newest of some events, as many as it has room for, and has counted the
others. -/
structure Holds (f : Feed) (room : Nat) (es : List RunEvent) : Prop where
  capacity : f.capacity = room
  kept : f.kept = es.drop (es.length - min room es.length)
  lost : f.lost = es.length - min room es.length

variable {f : Feed} {room : Nat} {es : List RunEvent}

theorem Holds.push (h : f.Holds room es) (hroom : 0 < room) (e : RunEvent) :
    (f.push e).Holds room (es ++ [e]) := by
  have hlength : f.kept.length = min room es.length := by
    rw [h.kept, List.length_drop]
    omega
  have hmore : (es ++ [e]).length = es.length + 1 := List.length_append
  unfold Feed.push
  rw [hlength, h.capacity]
  split
  · -- there is room left, so nothing has been lost so far
    next hlt =>
    constructor
    case capacity => rfl
    case kept =>
      have hzero : es.length - min room es.length = 0 := by omega
      have hzero' : (es ++ [e]).length - min room (es ++ [e]).length = 0 := by omega
      rw [hzero', List.drop_zero]
      show f.kept ++ [e] = es ++ [e]
      rw [h.kept, hzero, List.drop_zero]
    case lost =>
      rw [hmore]
      show f.lost = _
      rw [h.lost]
      omega
  · -- the oldest event that is kept makes room for the new one
    next hfull =>
    constructor
    case capacity => rfl
    case kept =>
      have hdrop : (es ++ [e]).length - min room (es ++ [e]).length =
          (es.length - min room es.length) + 1 := by omega
      rw [hdrop, List.drop_append_of_le_length (by omega), ← List.drop_drop]
      show f.kept.drop 1 ++ [e] = _
      rw [h.kept]
    case lost =>
      rw [hmore]
      show f.lost + 1 = _
      rw [h.lost]
      omega

theorem Holds.pushAll (h : f.Holds room es) (hroom : 0 < room) (more : List RunEvent) :
    (f.pushAll more).Holds room (es ++ more) := by
  induction more generalizing f es with
  | nil =>
    rw [List.append_nil]
    exact h
  | cons e more ih =>
    rw [List.append_cons]
    exact ih (h.push hroom e)

theorem Holds.drained (h : f.Holds room es) : f.drained.Holds room [] where
  capacity := h.capacity
  kept := List.drop_nil.symm
  lost := (Nat.zero_sub _).symm

theorem holds_ofCapacity (capacity : Nat) : (ofCapacity capacity).Holds (roundUp capacity) [] where
  capacity := rfl
  kept := List.drop_nil.symm
  lost := (Nat.zero_sub _).symm

end Feed

/-! ## The journal -/

namespace Journal

/-- A journal that shows its plain lists. -/
structure Shows (j : Journal) (room : Nat) (p : Plain) : Prop where
  sorted : Ordered.Sorted j.sessions
  sessions : ∀ id, (j.session id).events = Write.eventsOf id p.writes
  feed : ∃ f, j.feed = some f ∧ f.Holds room p.fresh
  readBefore : p.readBefore ≤ p.writes.length

theorem session_append (j : Journal) (hsorted : Ordered.Sorted j.sessions) (id id' : String)
    (now : Nat) (d : EventDraft) :
    (j.append id now d).session id' =
      if id' = id then (j.session id).append now d else j.session id' := by
  rw [session, append, Ordered.insert, Ordered.get?_alter _ _ _ hsorted]
  split
  · rfl
  · rfl

namespace Shows

variable {j : Journal} {room : Nat} {p : Plain}

theorem length (h : j.Shows room p) (id : String) :
    (j.session id).length = (Write.toSession id p.writes).length := by
  rw [Session.length, h.sessions, Write.length_eventsOf]

theorem append (h : j.Shows room p) (hroom : 0 < room) (id : String) (now : Nat)
    (d : EventDraft) : (j.append id now d).Shows room (p.after (.append id now d)) where
  sorted := Ordered.sorted_alter _ _ h.sorted
  sessions := by
    intro id'
    rw [j.session_append h.sorted]
    show _ = Write.eventsOf id' (p.writes ++ [⟨id, now, d⟩])
    rw [Write.eventsOf_concat]
    by_cases hid : id' = id
    · subst hid
      rw [if_pos rfl, if_pos rfl, Session.append, h.sessions, Session.stamp, h.length]
      rfl
    · rw [if_neg hid, if_neg (Ne.symm hid), h.sessions]
  feed := by
    obtain ⟨f, hf, hholds⟩ := h.feed
    refine ⟨f.push ⟨id, (j.session id).stamp now d⟩, ?_, ?_⟩
    · show Option.map _ j.feed = _
      rw [hf]
      rfl
    · have hfresh : (p.after (.append id now d)).fresh =
          p.fresh ++ [⟨id, (j.session id).stamp now d⟩] := by
        show (Write.tagged (p.writes ++ [⟨id, now, d⟩])).drop p.readBefore = _
        have hle : p.readBefore ≤ (Write.tagged p.writes).length := by
          rw [Write.length_tagged]
          exact h.readBefore
        rw [Write.tagged_concat, List.drop_append_of_le_length hle, Session.stamp, h.length]
        rfl
      rw [hfresh]
      exact hholds.push hroom _
  readBefore := by
    show p.readBefore ≤ (p.writes ++ [_]).length
    rw [List.length_append]
    exact Nat.le_trans h.readBefore (Nat.le_add_right _ _)

theorem drained (h : j.Shows room p) : j.drained.Shows room (p.after .drain) where
  sorted := h.sorted
  sessions := h.sessions
  feed := by
    obtain ⟨f, hf, hholds⟩ := h.feed
    refine ⟨f.drained, ?_, ?_⟩
    · show Option.map _ j.feed = _
      rw [hf]
      rfl
    · have hfresh : (p.after .drain).fresh = [] := by
        show (Write.tagged p.writes).drop p.writes.length = []
        rw [← Write.length_tagged, List.drop_length]
      rw [hfresh]
      exact hholds.drained
  readBefore := Nat.le_refl _

/-- What is asked of a journal brings it to where it brings the lists. -/
theorem after (h : j.Shows room p) (hroom : 0 < room) (op : Operation) :
    (j.after op).Shows room (p.after op) := by
  cases op with
  | append id now d => exact h.append hroom id now d
  | drain => exact h.drained
  | snapshot | length | lastFinal => exact h

theorem answer_eq (h : j.Shows room p) (op : Operation) : j.answer op = p.answer room op := by
  cases op with
  | append id now d => rw [Journal.answer, Session.stamp, h.length, Plain.answer]
  | snapshot id => rw [Journal.answer, h.sessions, Plain.answer]
  | length id => rw [Journal.answer, h.length, Plain.answer]
  | lastFinal id =>
    rw [Journal.answer, Session.lastFinal?, h.sessions, ← List.getLast?_filter, Plain.answer]
  | drain =>
    obtain ⟨f, hf, hholds⟩ := h.feed
    rw [Journal.answer, received, lagged, hf]
    show Answer.delivered f.kept f.lost = _
    rw [hholds.kept, hholds.lost, Plain.answer]

theorem perform (h : j.Shows room p) (hroom : 0 < room) (ops : List Operation) :
    (j.perform ops).Shows room (p.perform ops) := by
  induction ops generalizing j p with
  | nil => exact h
  | cons op ops ih => exact ih (h.after hroom op)

theorem answers_eq (h : j.Shows room p) (hroom : 0 < room) (ops : List Operation) :
    j.answers ops = p.answers room ops := by
  induction ops generalizing j p with
  | nil => rfl
  | cons op ops ih => rw [answers, Plain.answers, h.answer_eq op, ih (h.after hroom op)]

end Shows

theorem shows_ofCapacity (capacity : Nat) :
    (ofCapacity capacity).Shows (Feed.roundUp capacity) {} where
  sorted := trivial
  sessions := fun _ => rfl
  feed := ⟨_, rfl, Feed.holds_ofCapacity capacity⟩
  readBefore := Nat.le_refl _

/-! ## All readings together -/

/-- The events that a reading of the feed has given. -/
def Answer.received : Answer → List RunEvent
  | .delivered es _ => es
  | _ => []

/-- The number of the events that the feed had lost when it was read. -/
def Answer.lost : Answer → Nat
  | .delivered _ lagged => lagged
  | _ => 0

def Operation.isAppend : Operation → Bool
  | .append _ _ _ => true
  | _ => false

namespace Plain

variable (p : Plain) (room : Nat) (ops : List Operation) (op : Operation)

theorem perform_concat : p.perform (ops ++ [op]) = (p.perform ops).after op := by
  rw [perform, List.foldl_append]
  rfl

theorem answers_concat :
    p.answers room (ops ++ [op]) = p.answers room ops ++ [(p.perform ops).answer room op] := by
  induction ops generalizing p with
  | nil => rfl
  | cons first ops ih =>
    rw [List.cons_append, answers, ih, answers]
    rfl

theorem length_writes : (p.perform ops).writes.length =
    p.writes.length + ops.countP Operation.isAppend := by
  induction ops using List.reverseRecOn with
  | nil => rfl
  | append_singleton ops op ih =>
    rw [perform_concat, List.countP_append, List.countP_singleton, ← Nat.add_assoc, ← ih]
    cases op with
    | append id now d => exact List.length_append
    | snapshot | length | lastFinal | drain => rfl

/-- What all readings have given is found in this order among the events that were there to be read,
and together with what was lost it is as much. -/
structure Accounts (p : Plain) (as : List Answer) : Prop where
  readBefore : p.readBefore ≤ p.writes.length
  received : (as.flatMap Answer.received).Sublist ((Write.tagged p.writes).take p.readBefore)
  total : (as.flatMap Answer.received).length + (as.map Answer.lost).sum = p.readBefore

variable {p ops} in
theorem Accounts.after {as : List Answer} (h : p.Accounts as) :
    (p.after op).Accounts (as ++ [p.answer room op]) := by
  have hread := h.readBefore
  have htotal := h.total
  cases op with
  | append id now d =>
    have hle : p.readBefore ≤ (Write.tagged p.writes).length := by
      rw [Write.length_tagged]
      exact hread
    have hquiet : (p.answer room (.append id now d)).received = [] := rfl
    constructor
    case readBefore => exact Nat.le_trans hread (by simp [Plain.after])
    case received =>
      show List.Sublist _ ((Write.tagged (p.writes ++ [⟨id, now, d⟩])).take p.readBefore)
      rw [List.flatMap_append, List.flatMap_singleton, hquiet, List.append_nil, Write.tagged_concat,
        List.take_append_of_le_length hle]
      exact h.received
    case total => simpa [Plain.answer, Plain.after, Answer.received, Answer.lost] using htotal
  | drain =>
    -- what is read now comes after all that was there to be read before
    have hfresh : p.fresh.length = p.writes.length - p.readBefore := by
      rw [fresh, List.length_drop, Write.length_tagged]
    have hall : (Write.tagged p.writes).take p.writes.length =
        (Write.tagged p.writes).take p.readBefore ++ p.fresh := by
      rw [fresh, List.take_append_drop, ← Write.length_tagged, List.take_length]
    constructor
    case readBefore => exact Nat.le_refl _
    case received =>
      show List.Sublist _ ((Write.tagged p.writes).take p.writes.length)
      rw [List.flatMap_append, List.flatMap_singleton, hall]
      exact h.received.append (List.drop_sublist _ _)
    case total =>
      rw [List.flatMap_append, List.flatMap_singleton, List.length_append, List.map_append,
        List.sum_append, List.map_singleton, List.sum_singleton]
      show _ + (p.fresh.drop (p.fresh.length - min room p.fresh.length)).length +
        (_ + (p.fresh.length - min room p.fresh.length)) = p.writes.length
      rw [List.length_drop]
      omega
  | snapshot | length | lastFinal =>
    refine ⟨hread, ?_, ?_⟩
    · simpa [Plain.answer, Plain.after, Answer.received] using h.received
    · simpa [Plain.answer, Plain.after, Answer.received, Answer.lost] using htotal

theorem accounts : (({} : Plain).perform ops).Accounts (({} : Plain).answers room ops) := by
  induction ops using List.reverseRecOn with
  | nil => exact ⟨Nat.le_refl _, List.Sublist.refl _, rfl⟩
  | append_singleton ops op ih =>
    rw [perform_concat, answers_concat]
    exact ih.after room op

end Plain

/-- How a journal behaves while operations are performed on it. -/
structure ActsAsLists (capacity : Nat) (ops : List Operation) : Prop where
  room : (Feed.roundUp capacity).isPowerOfTwo ∧ capacity ≤ Feed.roundUp capacity ∧
    ∀ k, capacity ≤ 2 ^ k → Feed.roundUp capacity ≤ 2 ^ k
  answers : (ofCapacity capacity).answers ops = ({} : Plain).answers (Feed.roundUp capacity) ops
  grows : ∀ before after id, ops = before ++ after →
    (((ofCapacity capacity).perform before).session id).events <+:
      (((ofCapacity capacity).perform ops).session id).events
  once : (((ofCapacity capacity).answers ops).flatMap Answer.received).Nodup
  ordered : (((ofCapacity capacity).answers ops).flatMap Answer.received).Sublist
    (Write.tagged (({} : Plain).perform ops).writes)
  accounted : ∀ before, ops = before ++ [.drain] →
    (((ofCapacity capacity).answers ops).flatMap Answer.received).length +
      (((ofCapacity capacity).answers ops).map Answer.lost).sum = ops.countP Operation.isAppend

theorem events_prefix_perform (j : Journal) (hsorted : Ordered.Sorted j.sessions)
    (ops : List Operation) (id : String) :
    (j.session id).events <+: ((j.perform ops).session id).events := by
  induction ops generalizing j with
  | nil => exact List.prefix_rfl
  | cons op ops ih =>
    have hrest := ih (j.after op)
    cases op with
    | append id' now d =>
      refine List.IsPrefix.trans ?_ (hrest (Ordered.sorted_alter _ _ hsorted))
      show _ <+: ((j.append id' now d).session id).events
      rw [j.session_append hsorted]
      split
      · next h =>
        rw [h]
        exact List.prefix_append _ _
      · exact List.prefix_rfl
    | snapshot | length | lastFinal | drain => exact hrest hsorted

/-- Sessions that share a feed act as lists of what was added to each of them, and the feed as the
list of all of it. -/
theorem actsAsLists (capacity : Nat) (ops : List Operation) : ActsAsLists capacity ops := by
  have hshows := shows_ofCapacity capacity
  have hroom := Feed.roundUp_pos capacity
  have hanswers := hshows.answers_eq hroom ops
  have haccounts := Plain.accounts (Feed.roundUp capacity) ops
  have hordered := haccounts.received.trans (List.take_sublist _ _)
  constructor
  case room =>
    exact ⟨Feed.roundUp_isPowerOfTwo capacity, Feed.le_roundUp capacity,
      fun _ => Feed.roundUp_le_two_pow⟩
  case answers => exact hanswers
  case grows =>
    rintro before after id rfl
    have hperform : (ofCapacity capacity).perform (before ++ after) =
        ((ofCapacity capacity).perform before).perform after := List.foldl_append
    rw [hperform]
    exact events_prefix_perform _ (hshows.perform hroom before).sorted after id
  case once =>
    rw [hanswers]
    exact (Write.nodup_tagged _).sublist hordered
  case ordered =>
    rw [hanswers]
    exact hordered
  case accounted =>
    rintro before rfl
    have hlength := Plain.length_writes {} (before ++ [.drain])
    have hread : (({} : Plain).perform (before ++ [.drain])).readBefore =
        (({} : Plain).perform (before ++ [.drain])).writes.length := by
      rw [Plain.perform_concat]
      rfl
    rw [hanswers, haccounts.total, hread, hlength]
    exact Nat.zero_add _

end Journal

end Ensemble
