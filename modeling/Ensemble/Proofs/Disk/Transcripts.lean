import Ensemble.Proofs.Disk.Loading
import Ensemble.Proofs.Ordered
import Mathlib.Data.List.Nodup

/-!
A folder of transcripts and the registry that is made of it.  The registry has one agent for every
transcript and no others, in whatever order the files are listed.
-/

namespace Ensemble.Disk

/-! ## Trees of files -/

/-- A tree as a file system holds it: no two entries of a folder have one name. -/
inductive Tidy : Disk → Prop
  | file (bytes : ByteArray) : Tidy (.file bytes)
  | unreadable (isFolder : Bool) (reason : String) : Tidy (.unreadable isFolder reason)
  | folder {es : List (String × Disk)} (hnames : ∀ e ∈ es, IsName e.1)
      (hnodup : (Ordered.keys es).Nodup) (hbelow : ∀ e ∈ es, Tidy e.2) : Tidy (.folder es)

/-- The same tree, with any folders in it listed in another order. -/
inductive Relisted : Disk → Disk → Prop
  | refl (d : Disk) : Relisted d d
  | trans {d d' d'' : Disk} (h : Relisted d d') (h' : Relisted d' d'') : Relisted d d''
  | order {es es' : List (String × Disk)} (h : es.Perm es') :
      Relisted (.folder es) (.folder es')
  | inside {before after : List (String × Disk)} {name : String} {d d' : Disk}
      (h : Relisted d d') :
      Relisted (.folder (before ++ (name, d) :: after)) (.folder (before ++ (name, d') :: after))

/-- A registry that has an agent for every transcript, and no others. -/
structure Represents (es : List (String × Disk)) (g : Registry) : Prop where
  found : ∀ s : Script, s.LiesIn es → ∃ ds, s.Replays ds ∧
    ∀ kind, g.resolve { s.reference with kind } = .ok (.replay { script := ds })
  only : ∀ r a, g.resolve r = .ok a → ∃ (s : Script) (ds : List Delta), s.LiesIn es ∧
    s.Replays ds ∧ r.qualifiedName = s.reference.qualifiedName ∧ a = .replay { script := ds }
  size : ∃ all : List Script, all.Nodup ∧ (∀ s, s ∈ all ↔ s.LiesIn es) ∧ g.size = all.length

/-! ## Transcripts of a tidy folder -/

section Tidy

variable {es : List (String × Disk)}

theorem Script.LiesIn.names {s : Script} (h : s.LiesIn es) (htidy : Tidy (.folder es)) :
    (∀ n ∈ s.scope, IsName n) ∧ '/' ∉ s.name.toList := by
  obtain _ | _ | ⟨hnames, -, hbelow⟩ := htidy
  cases h with
  | here hname hfile hmem =>
    refine ⟨nofun, fun hslash => (hnames _ hmem).2 ?_⟩
    rw [String.toList_append]
    exact List.mem_append_left _ hslash
  | below hname hfile hfolder hmem =>
    obtain _ | _ | ⟨hinner, -, -⟩ := hbelow _ hfolder
    constructor
    · rintro n ⟨⟩
      exact hnames _ hfolder
    · intro hslash
      refine (hinner _ hmem).2 ?_
      rw [String.toList_append]
      exact List.mem_append_left _ hslash

/-- An agent has only one transcript. -/
theorem Script.LiesIn.unique {s s' : Script} (h : s.LiesIn es) (h' : s'.LiesIn es)
    (htidy : Tidy (.folder es)) (hscope : s.scope = s'.scope) (hname : s.name = s'.name) :
    s = s' := by
  have honce {l : List (String × Disk)} (hnodup : (Ordered.keys l).Nodup) {k : String}
      {d d' : Disk} (hd : (k, d) ∈ l) (hd' : (k, d') ∈ l) : d = d' := by
    rw [← Ordered.get?_eq_some_iff hnodup] at hd hd'
    exact Option.some.inj (hd.symm.trans hd')
  obtain _ | _ | ⟨-, hnodup, hbelow⟩ := htidy
  cases h with
  | here _ _ hmem =>
    cases h' with
    | here _ _ hmem' =>
      cases hname
      rw [honce hnodup hmem hmem']
    | below => cases hscope
  | below _ _ hfolder hmem =>
    cases h' with
    | here => cases hscope
    | below _ _ hfolder' hmem' =>
      cases hscope
      cases hname
      cases honce hnodup hfolder hfolder'
      obtain _ | _ | ⟨-, hinner, -⟩ := hbelow _ hfolder
      rw [honce hinner hmem hmem']

theorem Script.LiesIn.eq_of_qualifiedName {s s' : Script} (h : s.LiesIn es) (h' : s'.LiesIn es)
    (htidy : Tidy (.folder es))
    (hname : s.reference.qualifiedName = s'.reference.qualifiedName) : s = s' := by
  obtain ⟨hscope, hplain⟩ := h.names htidy
  obtain ⟨hscope', hplain'⟩ := h'.names htidy
  obtain ⟨heqScope, heqName⟩ :=
    AgentReference.qualifiedName_inj hscope hscope' hplain hplain' hname
  exact h.unique h' htidy heqScope heqName

theorem nodup_scriptsIn (scope : Option String) (h : (Ordered.keys es).Nodup) :
    (scriptsIn scope es).Nodup := by
  refine (List.Nodup.of_map Prod.fst h).filterMap ?_
  intro e e' s hs hs'
  -- the script has the whole entry in it
  have hentry {e : String × Disk} {s : Script}
      (hs : s ∈ if e.2.isFolder then none
        else (transcriptName? e.1).map fun name => Script.mk scope name e.2) :
      e = (s.name ++ ".ndjson", s.content) := by
    split at hs
    · cases hs
    · obtain ⟨name, hname, rfl⟩ := Option.map_eq_some_iff.mp hs
      rw [← (transcriptName?_eq_some_iff.mp hname).1]
  rw [hentry hs, hentry hs']

/-- The name of the entry that a transcript is found at. -/
theorem name_of_mem_scriptsAt {e : String × Disk} {s : Script} (h : s ∈ scriptsAt e) :
    e.1 = s.scope.getD (s.name ++ ".ndjson") := by
  unfold scriptsAt at h
  split at h
  · rw [(mem_scriptsIn.mp h).1]
    rfl
  · obtain ⟨hscope, -, -, hmem⟩ := mem_scriptsIn.mp h
    rw [hscope, ← List.mem_singleton.mp hmem]
    rfl

theorem nodup_scripts (htidy : Tidy (.folder es)) : (scripts es).Nodup := by
  obtain _ | _ | ⟨-, hnodup, hbelow⟩ := htidy
  rw [scripts, List.nodup_flatMap]
  constructor
  · intro e he
    unfold scriptsAt
    split
    · next inner hentries =>
      have hinner := hbelow e he
      rw [entries_eq_ok_iff.mp hentries] at hinner
      obtain _ | _ | ⟨-, hinner, -⟩ := hinner
      exact nodup_scriptsIn _ hinner
    · exact nodup_scriptsIn none (List.nodup_singleton _)
  · refine (List.pairwise_map.mp hnodup).imp fun hne s hs hs' => hne ?_
    rw [name_of_mem_scriptsAt hs, name_of_mem_scriptsAt hs']

/-! ## The registry of all transcripts -/

/-- The qualified names of agents, each with the agent. -/
def pairs (all : List Script) : List (String × Agent) :=
  all.map fun s => (s.reference.qualifiedName, s.agent)

theorem agents_enterAll (all : List Script) :
    (enterAll {} all).agents = Ordered.ofList (pairs all) := by
  have hfold (g : Registry) : (enterAll g all).agents =
      (pairs all).foldl (fun m p => Ordered.insert p.1 p.2 m) g.agents := by
    induction all generalizing g with
    | nil => rfl
    | cons s all ih => exact ih (g.registerIn s.scope s.name s.agent)
  exact hfold {}

theorem nodup_keys_pairs (htidy : Tidy (.folder es)) :
    (Ordered.keys (pairs (scripts es))).Nodup := by
  rw [Ordered.keys, pairs, List.map_map]
  refine (nodup_scripts htidy).map_on fun s hs s' hs' heq => ?_
  exact (mem_scripts.mp hs).eq_of_qualifiedName (mem_scripts.mp hs') htidy heq

theorem resolve_enterAll (htidy : Tidy (.folder es)) {r : AgentReference} {a : Agent} :
    (enterAll {} (scripts es)).resolve r = .ok a ↔
      ∃ s : Script, s.LiesIn es ∧ s.reference.qualifiedName = r.qualifiedName ∧ s.agent = a := by
  have hperm := Ordered.perm_ofList (nodup_keys_pairs htidy)
  have hnodup := (Ordered.sorted_ofList (pairs (scripts es))).nodup_keys
  have hget : (enterAll {} (scripts es)).resolve r = .ok a ↔
      Ordered.get? r.qualifiedName (enterAll {} (scripts es)).agents = some a := by
    unfold Registry.resolve
    split
    · next h => rw [h, Except.ok.injEq, Option.some.injEq]
    · next h => simp [h]
  rw [hget, agents_enterAll, Ordered.get?_eq_some_iff hnodup, hperm.mem_iff, pairs, List.mem_map]
  simp only [mem_scripts, Prod.mk.injEq]

theorem represents_enterAll (htidy : Tidy (.folder es)) (hload : Loadable es) :
    Represents es (enterAll {} (scripts es)) where
  found := by
    intro s hs
    obtain ⟨ds, hds⟩ := hload.scripts s hs
    exact ⟨ds, hds, fun kind => (resolve_enterAll htidy).mpr ⟨s, hs, rfl, hds.agent_eq⟩⟩
  only := by
    intro r a ha
    obtain ⟨s, hs, hname, rfl⟩ := (resolve_enterAll htidy).mp ha
    obtain ⟨ds, hds⟩ := hload.scripts s hs
    exact ⟨s, ds, hs, hds, hname.symm, hds.agent_eq⟩
  size := by
    refine ⟨scripts es, nodup_scripts htidy, fun s => mem_scripts, ?_⟩
    rw [Registry.size, agents_enterAll, (Ordered.perm_ofList (nodup_keys_pairs htidy)).length_eq,
      pairs, List.length_map]

end Tidy

/-! ## Other orders -/

namespace Relisted

theorem symm {d d' : Disk} (h : Relisted d d') : Relisted d' d := by
  induction h with
  | refl d => exact .refl d
  | trans _ _ ih ih' => exact ih'.trans ih
  | order h => exact .order h.symm
  | inside _ ih => exact .inside ih

theorem eq_of_not_listed {d d' : Disk} (h : Relisted d d') (hd : ∀ es, d ≠ .folder es) :
    d = d' := by
  induction h with
  | refl d => rfl
  | trans _ _ ih ih' =>
    cases ih hd
    exact ih' hd
  | order => exact absurd rfl (hd _)
  | inside => exact absurd rfl (hd _)

/-- A folder keeps the names in it, and what lies there stays the same but for its order. -/
theorem listing {es : List (String × Disk)} {d : Disk} (h : Relisted (.folder es) d) :
    ∃ es', d = .folder es' ∧ (Ordered.keys es).Perm (Ordered.keys es') ∧
      ∀ e ∈ es, ∃ x, (e.1, x) ∈ es' ∧ Relisted e.2 x := by
  generalize hfolder : Disk.folder es = d' at h
  induction h generalizing es with
  | refl d => exact ⟨es, hfolder.symm, List.Perm.refl _, fun e he => ⟨e.2, he, .refl e.2⟩⟩
  | trans _ _ ih ih' =>
    obtain ⟨middle, hmiddle, hkeys, hbelow⟩ := ih hfolder
    obtain ⟨es', rfl, hkeys', hbelow'⟩ := ih' hmiddle.symm
    refine ⟨es', rfl, hkeys.trans hkeys', fun e he => ?_⟩
    obtain ⟨x, hx, hex⟩ := hbelow e he
    obtain ⟨y, hy, hxy⟩ := hbelow' (e.1, x) hx
    exact ⟨y, hy, hex.trans hxy⟩
  | order hperm =>
    cases hfolder
    exact ⟨_, rfl, hperm.map Prod.fst, fun e he => ⟨e.2, hperm.mem_iff.mp he, .refl e.2⟩⟩
  | @inside before after name x x' hx _ =>
    cases hfolder
    refine ⟨_, rfl, ?_, fun e he => ?_⟩
    · rw [Ordered.keys, Ordered.keys, List.map_append, List.map_append, List.map_cons,
        List.map_cons]
    · rcases List.mem_append.mp he with he | he
      · exact ⟨e.2, List.mem_append_left _ he, .refl e.2⟩
      · rcases List.mem_cons.mp he with rfl | he
        · exact ⟨x', List.mem_append_right _ List.mem_cons_self, hx⟩
        · exact ⟨e.2, List.mem_append_right _ (List.mem_cons_of_mem _ he), .refl e.2⟩

theorem tidy {d d' : Disk} (h : Relisted d d') (htidy : Tidy d) : Tidy d' := by
  induction htidy generalizing d' with
  | file bytes =>
    rw [← h.eq_of_not_listed nofun]
    exact .file bytes
  | unreadable isFolder reason =>
    rw [← h.eq_of_not_listed nofun]
    exact .unreadable isFolder reason
  | @folder es hnames hnodup _ ih =>
    obtain ⟨es', rfl, hkeys, -⟩ := h.listing
    obtain ⟨_, heq, -, hback⟩ := h.symm.listing
    cases heq
    refine .folder (fun e he => ?_) (hkeys.nodup_iff.mp hnodup) fun e he => ?_
    · obtain ⟨x, hx, -⟩ := hback e he
      exact hnames (e.1, x) hx
    · obtain ⟨x, hx, hex⟩ := hback e he
      exact ih _ hx hex.symm

variable {es es' : List (String × Disk)}

theorem mem_file {name : String} {d : Disk} (h : Relisted (.folder es) (.folder es'))
    (hfile : d.isFolder = false) (hmem : (name, d) ∈ es) : (name, d) ∈ es' := by
  obtain ⟨_, heq, -, hbelow⟩ := h.listing
  cases heq
  obtain ⟨x, hx, hdx⟩ := hbelow _ hmem
  have hsame : d = x := by
    apply hdx.eq_of_not_listed
    rintro inner rfl
    cases hfile
  rw [hsame]
  exact hx

theorem liesIn {s : Script} (h : Relisted (.folder es) (.folder es')) (hs : s.LiesIn es) :
    s.LiesIn es' := by
  cases hs with
  | here hname hfile hmem => exact .here hname hfile (h.mem_file hfile hmem)
  | below hname hfile hfolder hmem =>
    obtain ⟨_, heq, -, hbelow⟩ := h.listing
    cases heq
    obtain ⟨x, hx, hinner⟩ := hbelow _ hfolder
    obtain ⟨inner', rfl, -, -⟩ := hinner.listing
    exact .below hname hfile hx (hinner.mem_file hfile hmem)

theorem loadable (h : Relisted (.folder es) (.folder es')) (hload : Loadable es) :
    Loadable es' where
  folders := by
    intro e he hfolder
    obtain ⟨_, heq, -, hback⟩ := h.symm.listing
    cases heq
    obtain ⟨x, hx, hex⟩ := hback e he
    by_cases hlisted : ∃ inner, e.2 = .folder inner
    · obtain ⟨inner, hinner⟩ := hlisted
      exact ⟨inner, entries_eq_ok_iff.mpr hinner⟩
    · have hsame := hex.eq_of_not_listed fun inner hinner => hlisted ⟨inner, hinner⟩
      rw [hsame] at hfolder ⊢
      exact hload.folders _ hx hfolder
  scripts := fun s hs => hload.scripts s (h.symm.liesIn hs)

theorem perm_scripts (h : Relisted (.folder es) (.folder es')) (htidy : Tidy (.folder es)) :
    (scripts es).Perm (scripts es') := by
  refine (List.perm_ext_iff_of_nodup (nodup_scripts htidy) (nodup_scripts (h.tidy htidy))).mpr ?_
  intro s
  rw [mem_scripts, mem_scripts]
  exact ⟨h.liesIn, h.symm.liesIn⟩

/-- The registry does not depend on the order in which the transcripts are entered. -/
theorem enterAll_eq (h : Relisted (.folder es) (.folder es')) (htidy : Tidy (.folder es)) :
    enterAll {} (scripts es') = enterAll {} (scripts es) := by
  have hperm : (pairs (scripts es')).Perm (Ordered.ofList (pairs (scripts es))) :=
    ((h.perm_scripts htidy).symm.map _).trans (Ordered.perm_ofList (nodup_keys_pairs htidy)).symm
  have hagents : (enterAll {} (scripts es')).agents = (enterAll {} (scripts es)).agents := by
    rw [agents_enterAll, agents_enterAll]
    exact Ordered.ofList_of_perm (Ordered.sorted_ofList _) hperm
  exact congrArg Registry.mk hagents

end Relisted

theorem loadRegistry_eq_ok_iff {path : String} {found : Except Fault Disk} {g : Registry} :
    loadRegistry path found = .ok g ↔
      ∃ es, found = .ok (.folder es) ∧ Loadable es ∧ enterAll {} (scripts es) = g := by
  unfold loadRegistry
  cases found with
  | error cause => simp
  | ok d =>
    cases hentries : d.entries with
    | error cause =>
      refine iff_of_false (by simp [hentries]) ?_
      rintro ⟨es, hfound, -⟩
      rw [entries_eq_ok_iff.mpr (Except.ok.inj hfound)] at hentries
      cases hentries
    | ok es =>
      obtain rfl := entries_eq_ok_iff.mp hentries
      simp only [hentries, loadEntries_eq_ok_iff, Except.ok.injEq, Disk.folder.injEq,
        exists_eq_left']

/-- A folder of transcripts is loaded exactly if it, the folders in it and all transcripts can be
read.  Then the registry has an agent for each of them and no others, however the folders are
listed; otherwise the message names a file or a folder that is at fault. -/
theorem loadRegistry_represents (path : String) {found : Except Fault Disk}
    (htidy : ∀ d, found = .ok d → d.Tidy) :
    ((∃ g, loadRegistry path found = .ok g) ↔ ∃ es, found = .ok (.folder es) ∧ Loadable es) ∧
    (∀ g, loadRegistry path found = .ok g →
      ∃ es, found = .ok (.folder es) ∧ Represents es g ∧
        ∀ d, Relisted (.folder es) d → loadRegistry path (.ok d) = .ok g) ∧
    ∀ fault, loadRegistry path found = .error fault →
      AtFault path found fault ∧ ∃ what, fault.chain.head? = some (what ++ fault.path) := by
  refine ⟨?_, ?_, ?_⟩
  · constructor
    · rintro ⟨g, hg⟩
      obtain ⟨es, hfound, hload, -⟩ := loadRegistry_eq_ok_iff.mp hg
      exact ⟨es, hfound, hload⟩
    · rintro ⟨es, hfound, hload⟩
      exact ⟨_, loadRegistry_eq_ok_iff.mpr ⟨es, hfound, hload, rfl⟩⟩
  · intro g hg
    obtain ⟨es, hfound, hload, rfl⟩ := loadRegistry_eq_ok_iff.mp hg
    have hes : Tidy (.folder es) := htidy _ hfound
    refine ⟨es, hfound, represents_enterAll hes hload, fun d hd => ?_⟩
    obtain ⟨es', rfl, -, -⟩ := hd.listing
    exact loadRegistry_eq_ok_iff.mpr ⟨es', rfl, hd.loadable hload, hd.enterAll_eq hes⟩
  · intro fault hfault
    refine ⟨atFault_of_loadRegistry hfault, ?_⟩
    cases fault <;> exact ⟨_, rfl⟩

/-- What is no transcript and what lies too deep is left out, though it could not be loaded. -/
theorem loadRegistry_represents_two_levels :
    let listed : List (String × Disk) :=
      [("notes.txt", .file "not a transcript".toUTF8),
        ("team", .folder [("critic.ndjson", .file "\x7b\"text\":\"ok\"\x7d\n".toUTF8),
          ("deep", .folder [("bad.ndjson", .file "not json".toUTF8)])]),
        ("writer.ndjson", .file "\x7b\"text\":\"hi\"\x7d\n".toUTF8)]
    Tidy (.folder listed) ∧ ∃ g, loadRegistry "agents" (.ok (.folder listed)) = .ok g ∧
      Represents listed g ∧ loadRegistry "agents" (.ok (.folder listed.reverse)) = .ok g ∧
      Ordered.keys g.agents = ["team/critic", "writer"] := by
  intro listed
  have htidy : Tidy (.folder listed) := by
    refine .folder (by simp [listed, IsName]) (by decide) ?_
    simp only [listed, List.forall_mem_cons]
    refine ⟨.file _, .folder (by simp [IsName]) (by decide) ?_, .file _, nofun⟩
    simp only [List.forall_mem_cons]
    refine ⟨.file _, .folder (by simp [IsName]) (by decide) ?_, nofun⟩
    simp only [List.forall_mem_cons]
    exact ⟨.file _, nofun⟩
  have hkeys : ((loadRegistry "agents" (.ok (.folder listed))).toOption.map
      fun g => Ordered.keys g.agents) = some ["team/critic", "writer"] := by
    decide +kernel
  obtain ⟨g, hg, hkeys⟩ := Option.map_eq_some_iff.mp hkeys
  have hload : loadRegistry "agents" (.ok (.folder listed)) = .ok g := by
    cases h : loadRegistry "agents" (.ok (.folder listed)) with
    | error fault =>
      rw [h] at hg
      cases hg
    | ok g' =>
      rw [h] at hg
      cases hg
      rfl
  have hfound : ∀ d, (Except.ok (Disk.folder listed) : Except Fault Disk) = .ok d → d.Tidy := by
    rintro d ⟨⟩
    exact htidy
  obtain ⟨-, hloaded, -⟩ := loadRegistry_represents "agents" hfound
  obtain ⟨es, hes, hrepresents, hrelisted⟩ := hloaded g hload
  cases hes
  exact ⟨htidy, g, hload, hrepresents, hrelisted _ (.order listed.reverse_perm.symm), hkeys⟩

end Ensemble.Disk
