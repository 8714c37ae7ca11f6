import Ensemble.Agent.Registry
import Ensemble.Proofs.Ordered
import Mathlib.Data.Finset.Card

/-!
A registry as a map of namespaces and names.  Agents are kept under their qualified names, in which
nothing tells the slash between a namespace and a name from a slash inside one of them.  A registry
is therefore a map of pairs only as long as no qualified name in it can be read in two ways.
-/

namespace Ensemble

/-- The namespace, which is empty if there is none, and the name. -/
def AgentReference.identity (r : AgentReference) : String × String :=
  (r.scope.getD "", r.name)

namespace Registry

/-- An agent that is entered, without a namespace or with one. -/
inductive Entry where
  | plain (name : String) (a : Agent)
  | inScope (scope name : String) (a : Agent)

namespace Entry

def identity : Entry → String × String
  | .plain name _ => ("", name)
  | .inScope scope name _ => (scope, name)

def agent : Entry → Agent
  | .plain _ a => a
  | .inScope _ _ a => a

def enter (g : Registry) : Entry → Registry
  | .plain name a => g.register name a
  | .inScope scope name a => g.registerIn (some scope) name a

end Entry

def ofEntries (es : List Entry) : Registry :=
  es.foldl Entry.enter {}

/-! ## Qualified names -/

def qualify (identity : String × String) : String :=
  if identity.1 = "" then identity.2 else identity.1 ++ "/" ++ identity.2

/-- Text that may be a namespace and a name. -/
def Splits (name : String) : Prop :=
  ∃ scope rest, scope ≠ "" ∧ name = scope ++ "/" ++ rest

/-- A slash at the very beginning cannot stand behind a namespace. -/
theorem splits_iff (name : String) : Splits name ↔ '/' ∈ name.toList.tail := by
  constructor
  · rintro ⟨scope, rest, hscope, rfl⟩
    obtain ⟨c, cs, hcs⟩ := List.exists_cons_of_ne_nil (mt String.toList_eq_nil_iff.mp hscope)
    simp [hcs]
  · intro hslash
    cases hname : name.toList with
    | nil => simp [hname] at hslash
    | cons c cs =>
      rw [hname, List.tail_cons] at hslash
      obtain ⟨s, t, rfl⟩ := List.append_of_mem hslash
      refine ⟨String.ofList (c :: s), String.ofList t, by simp, ?_⟩
      rw [← String.toList_inj, hname]
      simp

instance (name : String) : Decidable (Splits name) :=
  decidable_of_iff _ (splits_iff name).symm

theorem qualifiedName_eq (r : AgentReference) : r.qualifiedName = qualify r.identity := by
  unfold AgentReference.qualifiedName qualify AgentReference.identity
  cases r.scope with
  | none => rfl
  | some scope => simp only [Option.getD_some, String.isEmpty_iff]

theorem eq_plain_of_not_splits {identity : String × String} (h : ¬ Splits (qualify identity)) :
    identity = ("", qualify identity) := by
  by_cases hscope : identity.1 = ""
  · rw [qualify, if_pos hscope, ← hscope]
  · refine absurd ⟨identity.1, identity.2, hscope, ?_⟩ h
    rw [qualify, if_neg hscope]

/-- A name that splits is the name of a second agent. -/
theorem exists_ne_of_splits {identity : String × String} (h : Splits (qualify identity)) :
    ∃ other, other ≠ identity ∧ qualify other = qualify identity := by
  obtain ⟨scope, rest, hscope, hname⟩ := h
  by_cases hplain : identity = ("", qualify identity)
  · refine ⟨(scope, rest), fun heq => hscope ?_, ?_⟩
    · rw [← heq] at hplain
      exact congrArg Prod.fst hplain
    · rw [hname, qualify, if_neg hscope]
  · exact ⟨("", qualify identity), fun heq => hplain heq.symm, rfl⟩

/-! ## What is held under a qualified name -/

/-- The agent that was entered last of those with a property. -/
def latest? (es : List Entry) (p : Entry → Bool) : Option Agent :=
  (es.reverse.find? p).map Entry.agent

def answer (r : AgentReference) : Option Agent → Except NotFound Agent
  | some a => .ok a
  | none => .error ⟨r.qualifiedName⟩

variable (es : List Entry)

/-- The qualified names that were entered, each with its agent. -/
def pairs : List (String × Agent) :=
  es.map fun e => (qualify e.identity, e.agent)

theorem enter_eq (g : Registry) (e : Entry) :
    e.enter g = g.register (qualify e.identity) e.agent := by
  cases e with
  | plain name a => rfl
  | inScope scope name a =>
    rw [Entry.enter, registerIn, qualifiedName_eq]
    rfl

theorem agents_foldl_enter (g : Registry) :
    (es.foldl Entry.enter g).agents =
      (pairs es).foldl (fun m p => Ordered.insert p.1 p.2 m) g.agents := by
  induction es generalizing g with
  | nil => rfl
  | cons e es ih =>
    rw [List.foldl_cons, ih, enter_eq]
    rfl

theorem agents_ofEntries : (ofEntries es).agents = Ordered.ofList (pairs es) :=
  agents_foldl_enter es {}

theorem get?_pairs (name : String) :
    Ordered.get? name (pairs es) =
      (es.find? fun e => qualify e.identity = name).map Entry.agent := by
  induction es with
  | nil => rfl
  | cons e es ih =>
    rw [pairs, List.map_cons, ← pairs, Ordered.get?_cons, ih, List.find?_cons]
    by_cases h : qualify e.identity = name
    · simp [h]
    · simp [h, Ne.symm h]

/-- What was entered last under the qualified name of a reference is found, whichever pair it was
entered for. -/
theorem resolve_ofEntries (r : AgentReference) :
    (ofEntries es).resolve r =
      answer r (latest? es fun e => qualify e.identity = qualify r.identity) := by
  have hget : Ordered.get? r.qualifiedName (ofEntries es).agents =
      latest? es fun e => qualify e.identity = qualify r.identity := by
    rw [agents_ofEntries, Ordered.get?_ofList, pairs, ← List.map_reverse, ← pairs, get?_pairs,
      qualifiedName_eq, latest?]
  rw [resolve, hget]
  rfl

/-- A registry is as large as the number of different qualified names. -/
theorem size_ofEntries :
    (ofEntries es).size = ((es.map Entry.identity).toFinset.image qualify).card := by
  have hnodup := (Ordered.sorted_ofList (pairs es)).nodup_keys
  have hkeys : (Ordered.keys (Ordered.ofList (pairs es))).toFinset =
      (es.map Entry.identity).toFinset.image qualify := by
    ext name
    rw [List.mem_toFinset, ← Ordered.get?_isSome_iff, Ordered.get?_ofList, Ordered.get?_isSome_iff]
    simp [Ordered.keys, pairs]
  rw [size, agents_ofEntries, ← hkeys, List.toFinset_card_of_nodup hnodup, Ordered.keys,
    List.length_map]

/-! ## Maps of pairs -/

/-- What a map of pairs answers, and how large it is. -/
structure KeyedByPair : Prop where
  resolve : ∀ r, (ofEntries es).resolve r =
    answer r (latest? es fun e => e.identity = r.identity)
  size : (ofEntries es).size = (es.map Entry.identity).toFinset.card

variable {es}

theorem latest?_congr {p q : Entry → Bool} (h : ∀ e ∈ es, p e = q e) :
    latest? es p = latest? es q := by
  have hreverse : ∀ e ∈ es.reverse, p e = q e := fun e he => h e (List.mem_reverse.mp he)
  rw [latest?, latest?, ← List.head?_filter, ← List.head?_filter, List.filter_congr hreverse]

/-- A reference is answered rightly if only entries for its own pair have its qualified name. -/
theorem resolve_eq_of_alone {r : AgentReference}
    (h : ∀ e ∈ es, qualify e.identity = qualify r.identity → e.identity = r.identity) :
    (ofEntries es).resolve r = answer r (latest? es fun e => e.identity = r.identity) := by
  rw [resolve_ofEntries]
  congr 1
  refine latest?_congr fun e he => ?_
  rw [decide_eq_decide]
  exact ⟨h e he, congrArg qualify⟩

theorem size_eq_iff :
    (ofEntries es).size = (es.map Entry.identity).toFinset.card ↔
      ∀ e ∈ es, ∀ e' ∈ es, qualify e.identity = qualify e'.identity → e.identity = e'.identity := by
  rw [size_ofEntries, Finset.card_image_iff]
  simp [Set.InjOn]

theorem resolve_of_mem {e : Entry} (he : e ∈ es) {r : AgentReference}
    (h : qualify e.identity = qualify r.identity) : ∃ a, (ofEntries es).resolve r = .ok a := by
  have hsome : (es.reverse.find? fun e => qualify e.identity = qualify r.identity).isSome := by
    rw [List.find?_isSome]
    exact ⟨e, List.mem_reverse.mpr he, decide_eq_true h⟩
  obtain ⟨last, hlast⟩ := Option.isSome_iff_exists.mp hsome
  refine ⟨last.agent, ?_⟩
  rw [resolve_ofEntries, latest?, hlast]
  rfl

theorem latest?_of_forall_ne {r : AgentReference} (h : ∀ e ∈ es, e.identity ≠ r.identity) :
    latest? es (fun e => e.identity = r.identity) = none := by
  rw [latest?, Option.map_eq_none_iff, List.find?_eq_none]
  intro e he
  simpa using h e (List.mem_reverse.mp he)

/-- A second agent with a name that was entered is either found though nobody entered it, or was
entered too and left the registry too small. -/
theorem KeyedByPair.not_splits (h : KeyedByPair es) {e : Entry} (he : e ∈ es) :
    ¬ Splits (qualify e.identity) := by
  intro hsplits
  obtain ⟨other, hne, hname⟩ := exists_ne_of_splits hsplits
  by_cases hentered : ∃ e' ∈ es, e'.identity = other
  · obtain ⟨e', he', rfl⟩ := hentered
    exact hne (size_eq_iff.mp h.size e' he' e he hname)
  -- nobody entered the other agent, and yet a reference to it finds one
  · let r : AgentReference := { name := other.2, scope := some other.1 }
    have hnone : ∀ e' ∈ es, e'.identity ≠ r.identity := fun e' he' heq => hentered ⟨e', he', heq⟩
    have hsame : qualify e.identity = qualify r.identity := hname.symm
    obtain ⟨a, ha⟩ := resolve_of_mem he hsame
    rw [h.resolve r, latest?_of_forall_ne hnone] at ha
    cases ha

/-- A registry is a map of pairs exactly if no qualified name in it can be read in two ways.  Its
size is right if no two pairs that were entered have one name, and a reference is answered rightly
if no other pair that was entered has its name. -/
theorem keyedByPair_iff (es : List Entry) :
    (KeyedByPair es ↔ ∀ e ∈ es, ¬ Splits (qualify e.identity)) ∧
    ((ofEntries es).size = (es.map Entry.identity).toFinset.card ↔
      ∀ e ∈ es, ∀ e' ∈ es, qualify e.identity = qualify e'.identity → e.identity = e'.identity) ∧
    ∀ r : AgentReference,
      (∀ e ∈ es, qualify e.identity = qualify r.identity → e.identity = r.identity) →
        (ofEntries es).resolve r = answer r (latest? es fun e => e.identity = r.identity) := by
  refine ⟨⟨fun h e he => h.not_splits he, fun h => ?_⟩, size_eq_iff, fun r => resolve_eq_of_alone⟩
  have hplain {e : Entry} (he : e ∈ es) {identity : String × String}
      (hname : qualify e.identity = qualify identity) : e.identity = identity := by
    have hother : ¬ Splits (qualify identity) := hname ▸ h e he
    rw [eq_plain_of_not_splits (h e he), hname, ← eq_plain_of_not_splits hother]
  exact ⟨fun r => resolve_eq_of_alone fun e he => hplain he,
    size_eq_iff.mpr fun e he e' _ => hplain he⟩

/-- Without namespaces a slash may only come first; with them there may be none in the names. -/
theorem keyedByPair_plain_names :
    KeyedByPair [.plain "writer" .crashing, .inScope "" "/critic" .crashing] ∧
      (ofEntries [.plain "critic" (.replay {}), .inScope "team" "critic" .crashing]).resolve
        { name := "critic", scope := some "team" } = .ok .crashing := by
  refine ⟨(keyedByPair_iff _).1.mpr (by decide), ?_⟩
  exact (keyedByPair_iff _).2.2 _ (by decide)

/-- Two agents of different namespaces have one name: the second one takes the place of the first,
also for references to the first, and stands under a name of no namespace. -/
theorem not_keyedByPair_slash :
    let es : List Entry := [.inScope "a" "b/c" (.replay (.ofText "1")),
      .inScope "a/b" "c" (.replay (.ofText "2"))]
    (ofEntries es).resolve { name := "b/c", scope := some "a" } = .ok (.replay (.ofText "2")) ∧
      (ofEntries es).resolve { name := "a/b/c" } = .ok (.replay (.ofText "2")) ∧
      (ofEntries es).size = 1 ∧ ¬ KeyedByPair es := by
  intro es
  have hfirst : (ofEntries es).resolve { name := "b/c", scope := some "a" } =
      .ok (.replay (.ofText "2")) := rfl
  refine ⟨hfirst, rfl, rfl, fun h => ?_⟩
  have hkeyed : (ofEntries es).resolve { name := "b/c", scope := some "a" } =
      .ok (.replay (.ofText "1")) := h.resolve _
  exact absurd (hfirst.symm.trans hkeyed) (by decide)

end Registry

end Ensemble
