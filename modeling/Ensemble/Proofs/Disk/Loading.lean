import Ensemble.Proofs.Disk.Names
import Mathlib.Data.List.Basic

/-!
Loading a folder of transcripts.  The transcripts are entered in the order of the listing, and all
of them are entered exactly if everything that has to be read can be read; otherwise the fault that
is reported is one of a file or a folder that cannot.
-/

namespace Ensemble.Disk

theorem entries_eq_ok_iff {d : Disk} {es : List (String × Disk)} :
    d.entries = .ok es ↔ d = .folder es := by
  cases d with
  | unreadable isFolder reason => cases isFolder <;> simp [entries]
  | _ => simp [entries]

theorem isFolder_of_entries {d : Disk} {es : List (String × Disk)} (h : d.entries = .ok es) :
    d.isFolder = true := by
  rw [entries_eq_ok_iff.mp h]
  rfl

/-- A file that is a transcript: the namespace and the name of its agent, and what lies there. -/
structure Script where
  scope : Option String
  name : String
  content : Disk

namespace Script

def reference (s : Script) : AgentReference :=
  { name := s.name, scope := s.scope }

def path (folder : String) (s : Script) : String :=
  join (s.scope.elim folder (join folder)) (s.name ++ ".ndjson")

/-- The file can be read, and it is a transcript of these deltas. -/
def Replays (s : Script) (ds : List Delta) : Prop :=
  ∃ document, s.content.text = .ok document ∧ Transcript.read document = .ok ds

/-- A file with the extension of transcripts lies directly in a folder, or in the folder below that
is the namespace. -/
inductive LiesIn (es : List (String × Disk)) : Script → Prop
  | here {name : String} {d : Disk} (hname : name ≠ "") (hfile : d.isFolder = false)
      (hmem : (name ++ ".ndjson", d) ∈ es) : LiesIn es ⟨none, name, d⟩
  | below {scope name : String} {inner : List (String × Disk)} {d : Disk} (hname : name ≠ "")
      (hfile : d.isFolder = false) (hfolder : (scope, .folder inner) ∈ es)
      (hmem : (name ++ ".ndjson", d) ∈ inner) : LiesIn es ⟨some scope, name, d⟩

end Script

/-- The folder and the folders in it can be listed, and every transcript can be read. -/
structure Loadable (es : List (String × Disk)) : Prop where
  folders : ∀ e ∈ es, e.2.isFolder = true → ∃ inner, e.2.entries = .ok inner
  scripts : ∀ s : Script, s.LiesIn es → ∃ ds, s.Replays ds

def LoadFault.path : LoadFault → String
  | .folder path _ => path
  | .file path _ => path
  | .transcript path _ => path

/-- Why a transcript at a path cannot be loaded. -/
inductive Script.Faulty (path : String) (s : Script) : LoadFault → Prop
  | unread {cause : Fault} (htext : s.content.text = .error cause) :
      Faulty path s (.file path cause)
  | invalid {document : String} {cause : Transcript.Fault} (htext : s.content.text = .ok document)
      (hread : Transcript.read document = .error cause) : Faulty path s (.transcript path cause)

/-- What keeps a folder from being loaded, at its own path. -/
inductive AtFault (path : String) (found : Except Fault Disk) : LoadFault → Prop
  | missing {cause : Fault} (hfound : found = .error cause) :
      AtFault path found (.folder path cause)
  | unlisted {d : Disk} {cause : Fault} (hfound : found = .ok d)
      (hentries : d.entries = .error cause) : AtFault path found (.folder path cause)
  | below {es : List (String × Disk)} {name : String} {d : Disk} {cause : Fault}
      (hfound : found = .ok (.folder es)) (hmem : (name, d) ∈ es) (hfolder : d.isFolder = true)
      (hentries : d.entries = .error cause) : AtFault path found (.folder (join path name) cause)
  | script {es : List (String × Disk)} {s : Script} {fault : LoadFault}
      (hfound : found = .ok (.folder es)) (hlies : s.LiesIn es)
      (hfault : s.Faulty (s.path path) fault) : AtFault path found fault

/-! ## Transcripts in the order of the listing -/

def scriptsIn (scope : Option String) (es : List (String × Disk)) : List Script :=
  es.filterMap fun e =>
    if e.2.isFolder then none else (transcriptName? e.1).map fun name => ⟨scope, name, e.2⟩

/-- The transcripts that an entry is or holds. -/
def scriptsAt (e : String × Disk) : List Script :=
  match e.2.entries with
  | .ok inner => scriptsIn (some e.1) inner
  | .error _ => scriptsIn none [e]

def scripts (es : List (String × Disk)) : List Script :=
  es.flatMap scriptsAt

theorem mem_scriptsIn {s : Script} {scope : Option String} {es : List (String × Disk)} :
    s ∈ scriptsIn scope es ↔
      s.scope = scope ∧ s.name ≠ "" ∧ s.content.isFolder = false ∧
        (s.name ++ ".ndjson", s.content) ∈ es := by
  obtain ⟨scope', name, d⟩ := s
  rw [scriptsIn, List.mem_filterMap]
  constructor
  · rintro ⟨⟨file, d'⟩, hmem, hs⟩
    split at hs
    · cases hs
    · next hfile =>
      obtain ⟨name', hname, heq⟩ := Option.map_eq_some_iff.mp hs
      cases heq
      obtain ⟨rfl, hne⟩ := transcriptName?_eq_some_iff.mp hname
      exact ⟨rfl, hne, Bool.not_eq_true _ ▸ hfile, hmem⟩
  · rintro ⟨rfl, hne, hfile, hmem⟩
    refine ⟨_, hmem, ?_⟩
    rw [if_neg (Bool.not_eq_true _ ▸ hfile), transcriptName?_eq_some_iff.mpr ⟨rfl, hne⟩]
    rfl

theorem scriptsAt_folder (name : String) (inner : List (String × Disk)) :
    scriptsAt (name, .folder inner) = scriptsIn (some name) inner := rfl

theorem scriptsAt_file {e : String × Disk} (h : e.2.isFolder = false) :
    scriptsAt e = scriptsIn none [e] := by
  unfold scriptsAt
  split
  · next hentries =>
    rw [isFolder_of_entries hentries] at h
    cases h
  · rfl

theorem mem_scripts {s : Script} {es : List (String × Disk)} : s ∈ scripts es ↔ s.LiesIn es := by
  rw [scripts, List.mem_flatMap]
  constructor
  · rintro ⟨⟨name, d⟩, hmem, hs⟩
    unfold scriptsAt at hs
    obtain ⟨scope, agent, content⟩ := s
    split at hs
    · next inner hentries =>
      obtain ⟨rfl, hne, hfile, hinner⟩ := mem_scriptsIn.mp hs
      cases entries_eq_ok_iff.mp hentries
      exact .below hne hfile hmem hinner
    · obtain ⟨rfl, hne, hfile, heq⟩ := mem_scriptsIn.mp hs
      cases List.mem_singleton.mp heq
      exact .here hne hfile hmem
  · intro h
    cases h with
    | here hname hfile hmem =>
      refine ⟨_, hmem, ?_⟩
      rw [scriptsAt_file hfile]
      exact mem_scriptsIn.mpr ⟨rfl, hname, hfile, List.mem_singleton_self _⟩
    | below hname hfile hfolder hmem =>
      exact ⟨_, hfolder, mem_scriptsIn.mpr ⟨rfl, hname, hfile, hmem⟩⟩

/-! ## Loading in the order of the listing -/

namespace Script

/-- What the file is a transcript of, if it is one. -/
def deltas? (s : Script) : Option (List Delta) :=
  match s.content.text with
  | .error _ => none
  | .ok document =>
    match Transcript.read document with
    | .error _ => none
    | .ok ds => some ds

theorem deltas?_eq_some_iff {s : Script} {ds : List Delta} :
    s.deltas? = some ds ↔ s.Replays ds := by
  unfold deltas? Replays
  cases s.content.text with
  | error fault => simp
  | ok document => cases hread : Transcript.read document <;> simp [hread]

def agent (s : Script) : Agent :=
  .replay { script := s.deltas?.getD [] }

theorem Replays.agent_eq {s : Script} {ds : List Delta} (h : s.Replays ds) :
    s.agent = .replay { script := ds } := by
  rw [agent, deltas?_eq_some_iff.mpr h, Option.getD_some]

end Script

def enterAll (g : Registry) (all : List Script) : Registry :=
  all.foldl (fun g s => g.registerIn s.scope s.name s.agent) g

theorem enterAll_append (g : Registry) (all more : List Script) :
    enterAll g (all ++ more) = enterAll (enterAll g all) more :=
  List.foldl_append

/-- A part of the loading that is done exactly under a condition and then enters these scripts. -/
def Loads (condition : Prop) (all : List Script)
    (load : Registry → Except LoadFault Registry) : Prop :=
  ∀ g g', load g = .ok g' ↔ (condition ∧ ∀ s ∈ all, ∃ ds, s.Replays ds) ∧ enterAll g all = g'

theorem Loads.andThen {c c' : Prop} {all more : List Script}
    {load load' : Registry → Except LoadFault Registry} (h : Loads c all load)
    (h' : Loads c' more load') :
    Loads (c ∧ c') (all ++ more) fun g =>
      match load g with
      | .error fault => .error fault
      | .ok g => load' g := by
  intro g g'
  dsimp only
  rw [enterAll_append, List.forall_mem_append]
  cases hload : load g with
  | error fault =>
    -- the first part fails, so its condition or one of its scripts does
    have hfails : ¬ (c ∧ ∀ s ∈ all, ∃ ds, s.Replays ds) := by
      intro hc
      cases hload.symm.trans ((h g _).mpr ⟨hc, rfl⟩)
    refine iff_of_false (fun heq => by cases heq) ?_
    rintro ⟨⟨⟨hc, -⟩, hall, -⟩, -⟩
    exact hfails ⟨hc, hall⟩
  | ok middle =>
    obtain ⟨⟨hc, hall⟩, rfl⟩ := (h g middle).mp hload
    dsimp only
    rw [h' (enterAll g all) g']
    tauto

theorem loadAgent_eq_ok_iff {path : String} {s : Script} {a : Agent} :
    loadAgent path s.content = .ok a ↔ ∃ ds, s.Replays ds ∧ s.agent = a := by
  unfold loadAgent Replay.ofTranscript
  cases htext : s.content.text with
  | error cause => simp [Script.Replays, htext]
  | ok document =>
    cases hread : Transcript.read document with
    | error cause => simp [Script.Replays, htext, hread]
    | ok ds =>
      have hreplays : s.Replays ds := ⟨document, htext, hread⟩
      simp only [hread, Except.ok.injEq, ← hreplays.agent_eq]
      exact ⟨fun heq => ⟨ds, hreplays, heq⟩, fun ⟨_, _, heq⟩ => heq⟩

theorem loads_file (folder : String) (scope : Option String) (name : String) {d : Disk}
    (hfile : d.isFolder = false) :
    Loads True (scriptsIn scope [(name, d)]) (loadFile folder scope name d) := by
  intro g g'
  unfold loadFile
  cases hname : transcriptName? name with
  | none => simp [scriptsIn, hfile, hname, enterAll]
  | some agent =>
    let s : Script := ⟨scope, agent, d⟩
    have hscripts : scriptsIn scope [(name, d)] = [s] := by simp [scriptsIn, hfile, hname, s]
    rw [hscripts, List.forall_mem_singleton, true_and]
    cases hload : loadAgent (join folder name) d with
    | error fault =>
      refine iff_of_false nofun ?_
      rintro ⟨⟨ds, hds⟩, -⟩
      cases hload.symm.trans (loadAgent_eq_ok_iff.mpr ⟨ds, hds, rfl⟩)
    | ok a =>
      obtain ⟨ds, hds, rfl⟩ := loadAgent_eq_ok_iff (s := s) |>.mp hload
      rw [Except.ok.injEq]
      exact ⟨fun heq => ⟨⟨ds, hds⟩, heq⟩, fun h => h.2⟩

theorem scriptsIn_cons (scope : Option String) (e : String × Disk) (es : List (String × Disk)) :
    scriptsIn scope (e :: es) = scriptsIn scope [e] ++ scriptsIn scope es :=
  List.filterMap_append (l := [e])

theorem loads_below (folder scope : String) (es : List (String × Disk)) :
    Loads True (scriptsIn (some scope) es) fun g => loadBelow folder scope g es := by
  induction es with
  | nil =>
    intro g g'
    simp [loadBelow, scriptsIn, enterAll]
  | cons e es ih =>
    obtain ⟨name, d⟩ := e
    rw [scriptsIn_cons]
    cases hfolder : d.isFolder with
    | true =>
      have hnone : scriptsIn (some scope) [(name, d)] = [] := by simp [scriptsIn, hfolder]
      rw [hnone, List.nil_append]
      simpa only [loadBelow, hfolder, if_true] using ih
    | false =>
      have hboth := (loads_file folder (some scope) name hfolder).andThen ih
      rw [true_and] at hboth
      simp only [loadBelow, hfolder, Bool.false_eq_true, if_false]
      exact hboth

theorem loads_entry (folder : String) (e : String × Disk) :
    Loads (e.2.isFolder = true → ∃ inner, e.2.entries = .ok inner) (scriptsAt e)
      (loadEntry folder e.1 e.2) := by
  obtain ⟨name, d⟩ := e
  intro g g'
  dsimp only
  unfold loadEntry
  cases hfolder : d.isFolder with
  | false =>
    rw [if_neg Bool.false_ne_true, scriptsAt_file hfolder, loads_file folder none name hfolder g g']
    simp
  | true =>
    rw [if_pos rfl]
    cases hentries : d.entries with
    | error cause => exact iff_of_false nofun fun h => by simpa using h.1.1 rfl
    | ok inner =>
      cases entries_eq_ok_iff.mp hentries
      rw [scriptsAt_folder]
      refine (loads_below (join folder name) name inner g g').trans ?_
      simp

theorem loads_entries (folder : String) (es : List (String × Disk)) :
    Loads (∀ e ∈ es, e.2.isFolder = true → ∃ inner, e.2.entries = .ok inner) (scripts es)
      fun g => loadEntries folder g es := by
  induction es with
  | nil =>
    intro g g'
    simp [loadEntries, scripts, enterAll]
  | cons e es ih =>
    have hboth := (loads_entry folder e).andThen ih
    rw [scripts, List.flatMap_cons, List.forall_mem_cons]
    exact hboth

theorem loadEntries_eq_ok_iff {folder : String} {es : List (String × Disk)} {g : Registry} :
    loadEntries folder {} es = .ok g ↔ Loadable es ∧ enterAll {} (scripts es) = g := by
  rw [loads_entries folder es {} g]
  refine and_congr_left fun _ => ?_
  simp only [mem_scripts]
  exact ⟨fun h => ⟨h.1, h.2⟩, fun h => ⟨h.folders, h.scripts⟩⟩

/-! ## Faults -/

theorem faulty_of_loadAgent {path : String} {s : Script} {fault : LoadFault}
    (h : loadAgent path s.content = .error fault) : s.Faulty path fault := by
  unfold loadAgent Replay.ofTranscript at h
  cases htext : s.content.text with
  | error cause =>
    rw [htext] at h
    cases h
    exact .unread htext
  | ok document =>
    cases hread : Transcript.read document with
    | error cause =>
      simp only [htext, hread] at h
      cases h
      exact .invalid htext hread
    | ok ds =>
      simp only [htext, hread] at h
      cases h

section Fault

variable {folder : String} {g : Registry} {fault : LoadFault}

theorem fault_of_loadFile {scope : Option String} {name : String} {d : Disk}
    (hfile : d.isFolder = false) (h : loadFile folder scope name d g = .error fault) :
    ∃ s ∈ scriptsIn scope [(name, d)], s.Faulty (join folder (s.name ++ ".ndjson")) fault := by
  unfold loadFile at h
  split at h
  · cases h
  · next agent hagent =>
    obtain ⟨rfl, hne⟩ := transcriptName?_eq_some_iff.mp hagent
    refine ⟨⟨scope, agent, d⟩, mem_scriptsIn.mpr ⟨rfl, hne, hfile, List.mem_singleton_self _⟩, ?_⟩
    split at h
    · next hload =>
      cases h
      exact faulty_of_loadAgent hload
    · cases h

theorem fault_of_loadBelow {scope : String} {es : List (String × Disk)}
    (h : loadBelow folder scope g es = .error fault) :
    ∃ s ∈ scriptsIn (some scope) es, s.Faulty (join folder (s.name ++ ".ndjson")) fault := by
  induction es generalizing g with
  | nil => cases h
  | cons e es ih =>
    have hlater {g : Registry} (h : loadBelow folder scope g es = .error fault) :
        ∃ s ∈ scriptsIn (some scope) (e :: es),
          s.Faulty (join folder (s.name ++ ".ndjson")) fault := by
      obtain ⟨s, hs, hfaulty⟩ := ih h
      rw [scriptsIn_cons]
      exact ⟨s, List.mem_append_right _ hs, hfaulty⟩
    rw [loadBelow] at h
    split at h
    · exact hlater h
    · next hfile =>
      split at h
      · next hload =>
        cases h
        obtain ⟨s, hs, hfaulty⟩ := fault_of_loadFile (Bool.not_eq_true _ ▸ hfile) hload
        rw [scriptsIn_cons]
        exact ⟨s, List.mem_append_left _ hs, hfaulty⟩
      · exact hlater h

/-- What keeps an entry from being loaded: a folder that cannot be listed, or a transcript. -/
def EntryFault (folder : String) (e : String × Disk) (fault : LoadFault) : Prop :=
  (∃ cause, e.2.isFolder = true ∧ e.2.entries = .error cause ∧
    fault = .folder (join folder e.1) cause) ∨
  ∃ s ∈ scriptsAt e, s.Faulty (s.path folder) fault

theorem fault_of_loadEntry {e : String × Disk}
    (h : loadEntry folder e.1 e.2 g = .error fault) : EntryFault folder e fault := by
  obtain ⟨name, d⟩ := e
  unfold loadEntry at h
  split at h
  · next hfolder =>
    split at h
    · next cause hentries =>
      cases h
      exact .inl ⟨cause, hfolder, hentries, rfl⟩
    · next inner hentries =>
      cases entries_eq_ok_iff.mp hentries
      obtain ⟨s, hs, hfaulty⟩ := fault_of_loadBelow h
      refine .inr ⟨s, hs, ?_⟩
      rw [Script.path, (mem_scriptsIn.mp hs).1]
      exact hfaulty
  · next hfile =>
    have hfile : d.isFolder = false := Bool.not_eq_true _ ▸ hfile
    obtain ⟨s, hs, hfaulty⟩ := fault_of_loadFile hfile h
    rw [EntryFault, scriptsAt_file hfile]
    refine .inr ⟨s, hs, ?_⟩
    rw [Script.path, (mem_scriptsIn.mp hs).1]
    exact hfaulty

theorem fault_of_loadEntries {es : List (String × Disk)}
    (h : loadEntries folder g es = .error fault) : ∃ e ∈ es, EntryFault folder e fault := by
  induction es generalizing g with
  | nil => cases h
  | cons e es ih =>
    rw [loadEntries] at h
    split at h
    · next hload =>
      cases h
      exact ⟨e, List.mem_cons_self, fault_of_loadEntry hload⟩
    · obtain ⟨e', he', hfault⟩ := ih h
      exact ⟨e', List.mem_cons_of_mem e he', hfault⟩

/-- Whatever keeps a folder from being loaded is at fault, and is named. -/
theorem atFault_of_loadRegistry {found : Except Disk.Fault Disk}
    (h : loadRegistry folder found = .error fault) : AtFault folder found fault := by
  unfold loadRegistry at h
  split at h
  · cases h
    exact .missing rfl
  · split at h
    · next hentries =>
      cases h
      exact .unlisted rfl hentries
    · next es hentries =>
      cases entries_eq_ok_iff.mp hentries
      obtain ⟨⟨name, d⟩, hmem, ⟨cause, hfolder, hcause, rfl⟩ | ⟨s, hs, hfaulty⟩⟩ :=
        fault_of_loadEntries h
      · exact .below rfl hmem hfolder hcause
      · exact .script rfl (mem_scripts.mp (List.mem_flatMap.mpr ⟨_, hmem, hs⟩)) hfaulty

end Fault

end Ensemble.Disk
