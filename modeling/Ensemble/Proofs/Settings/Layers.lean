import Ensemble.Proofs.Json.Merge
import Ensemble.Proofs.Json.Record
import Ensemble.Proofs.Text.Digits
import Ensemble.Settings.Layers

/-!
Which layer a setting comes from.  The environment comes first, then the file of the project, then
that of the user, then the built-in value, and a file that does not contain a setting leaves it
alone.  The one exception are files that say something by its place in a list: a list takes the
place of all that lies below it, and what it is too short for falls back to the built-in value.
-/

namespace Ensemble

open Json (Tree Fields)

inductive Setting where
  | defaultMaxWorkers
  | eventCapacity
  | streaming
  | logLevel
  | toolName
  | textMarker
  deriving DecidableEq

namespace Setting

inductive Group where
  | engine
  | loopStop

def Group.name : Group → String
  | .engine => "engine"
  | .loopStop => "loop_stop"

/-- The keys of a group in their declared order. -/
def Group.keys : Group → List String
  | .engine => ["default_max_workers", "event_capacity", "streaming", "log_level"]
  | .loopStop => ["tool_name", "text_marker"]

def groupNames : List String := ["engine", "loop_stop"]

def group : Setting → Group
  | .toolName | .textMarker => .loopStop
  | _ => .engine

def key : Setting → String
  | .defaultMaxWorkers => "default_max_workers"
  | .eventCapacity => "event_capacity"
  | .streaming => "streaming"
  | .logLevel => "log_level"
  | .toolName => "tool_name"
  | .textMarker => "text_marker"

/-- The value of a setting, as a settings file would write it. -/
def valueIn (s : Settings) : Setting → Json
  | .defaultMaxWorkers => .nat s.engine.defaultMaxWorkers.toNat
  | .eventCapacity => .nat s.engine.eventCapacity.toNat
  | .streaming => .bool s.engine.streaming
  | .logLevel => .string s.engine.logLevel
  | .toolName => .string s.loopStop.toolName
  | .textMarker => Json.ofOption .string s.loopStop.textMarker

def builtIn (x : Setting) : Json :=
  x.valueIn {}

/-- What the environment gives, if it has a variable for the setting that is set and parses. -/
def fromEnvironment (env : String → Option String) : Setting → Option Json
  | .defaultMaxWorkers =>
    ((env "CONDUCTOR_DEFAULT_MAX_WORKERS").bind (Text.unsignedBelow? UInt32.size)).map .nat
  | .eventCapacity =>
    ((env "CONDUCTOR_EVENT_CAPACITY").bind (Text.unsignedBelow? UInt64.size)).map .nat
  | .streaming => ((env "CONDUCTOR_STREAMING").bind Settings.readBool?).map .bool
  | .logLevel => (env "CONDUCTOR_LOG_LEVEL").map .string
  | .toolName => (env "CONDUCTOR_LOOP_STOP_TOOL").map .string
  | .textMarker => none

/-- The value at the key of a setting, if a file contains the key. -/
def named (x : Setting) (file : Json) : Option Json :=
  (file.get? x.group.name).bind (Json.get? x.key)

/-- The value that a setting has by the order of the layers. -/
def layered (x : Setting) (env : String → Option String) (project global : Option Json) : Json :=
  ((x.fromEnvironment env).or ((project.bind x.named).or (global.bind x.named))).getD x.builtIn

/-! ## Settings that are decoded -/

/-- What a value gives for a setting, by name or by place. -/
def given (x : Setting) (j : Json) : Option Json :=
  (j.field? groupNames x.group.name).bind (Json.field? x.group.keys x.key)

/-- Whether a setting stands in a list, or its whole group does. -/
def listed (x : Setting) (j : Json) : Bool :=
  j.items?.isSome || ((j.get? x.group.name).bind Json.items?).isSome

/-- Settings whose part for a group was decoded from a value. -/
def Group.Decodes (s : Settings) : Group → Json → Prop
  | .engine, j => Settings.Engine.ofTree? (.ofJson j) = some s.engine
  | .loopStop, j => Settings.LoopStop.ofTree? (.ofJson j) = some s.loopStop

/-- Settings whose part for a group is the built-in one. -/
def Group.IsBuiltIn (s : Settings) : Group → Prop
  | .engine => s.engine = {}
  | .loopStop => s.loopStop = {}

theorem valueIn_of_isBuiltIn {x : Setting} {s : Settings} (h : x.group.IsBuiltIn s) :
    x.valueIn s = x.builtIn := by
  obtain ⟨e, l⟩ := s
  cases x <;>
  · cases h
    rfl

theorem valueIn_engine {j : Json} {s : Settings} (h : Group.engine.Decodes s j) {x : Setting}
    (hx : x.group = .engine) :
    x.valueIn s = (j.field? Group.engine.keys x.key).getD x.builtIn := by
  obtain ⟨e, l⟩ := s
  simp only [Group.Decodes, Settings.Engine.ofTree?, Option.bind_eq_bind,
    Option.bind_eq_some_iff] at h
  obtain ⟨fields, hfields, workers, hworkers, capacity, hcapacity, streaming, hstreaming, level,
    hlevel, he⟩ := h
  obtain rfl := Option.some.inj he
  have hget {name : String} (hname : name ∈ Group.engine.keys) :=
    Json.get?_of_ofTree? hfields hname
  cases x with
  | defaultMaxWorkers =>
    exact Json.encode_withDefault Json.recovers_uint32 (hget (by decide)) hworkers
  | eventCapacity =>
    exact Json.encode_withDefault Json.recovers_uint64 (hget (by decide)) hcapacity
  | streaming => exact Json.encode_withDefault Json.recovers_bool (hget (by decide)) hstreaming
  | logLevel => exact Json.encode_withDefault Json.recovers_string (hget (by decide)) hlevel
  | toolName | textMarker => cases hx

theorem valueIn_loopStop {j : Json} {s : Settings} (h : Group.loopStop.Decodes s j) {x : Setting}
    (hx : x.group = .loopStop) :
    x.valueIn s = (j.field? Group.loopStop.keys x.key).getD x.builtIn := by
  obtain ⟨e, l⟩ := s
  simp only [Group.Decodes, Settings.LoopStop.ofTree?, Option.bind_eq_bind,
    Option.bind_eq_some_iff] at h
  obtain ⟨fields, hfields, name, hname, marker, hmarker, hl⟩ := h
  obtain rfl := Option.some.inj hl
  have hget {name : String} (hname : name ∈ Group.loopStop.keys) :=
    Json.get?_of_ofTree? hfields hname
  cases x with
  | toolName => exact Json.encode_withDefault Json.recovers_string (hget (by decide)) hname
  | textMarker =>
    exact Json.encode_withDefault (Json.recovers_nullable Json.recovers_string) (hget (by decide))
      hmarker
  | defaultMaxWorkers | eventCapacity | streaming | logLevel => cases hx

theorem valueIn_of_decodes {j : Json} {s : Settings} {x : Setting} (h : x.group.Decodes s j) :
    x.valueIn s = (j.field? x.group.keys x.key).getD x.builtIn := by
  cases hx : x.group with
  | engine =>
    rw [hx] at h
    exact valueIn_engine h hx
  | loopStop =>
    rw [hx] at h
    exact valueIn_loopStop h hx

/-- A group is decoded from an object or a list. -/
theorem object_or_list_of_decodes {g : Group} {s : Settings} {j : Json} (h : g.Decodes s j) :
    j.isObject = true ∨ j.items?.isSome = true := by
  cases g <;>
  · obtain ⟨fields, hfields, -⟩ := Option.bind_eq_some_iff.mp h
    exact Json.object_or_list_of_ofTree? hfields

/-- A group that is not given has its built-in values, any other one what was given. -/
theorem group_of_withDefault {α : Type} {decode : Tree → Option α} {fields : Fields}
    {name : String} {o : Option Json} (hget : Ordered.get? name fields = o.map .ofJson)
    {fallback a : α} (h : fields.withDefault name fallback decode = some a) :
    (o = none ∧ a = fallback) ∨ ∃ j, o = some j ∧ decode (.ofJson j) = some a := by
  rw [Fields.withDefault, hget] at h
  cases o with
  | none => exact .inl ⟨rfl, (Option.some.inj h).symm⟩
  | some j => exact .inr ⟨j, rfl, h⟩

/-- Settings are decoded group by group, from an object or a list. -/
theorem parts_of_ofTree? {m : Json} {s : Settings} (h : Settings.ofTree? (.ofJson m) = some s) :
    (m.isObject = true ∨ m.items?.isSome = true) ∧
      ∀ g : Group, (m.field? groupNames g.name = none ∧ g.IsBuiltIn s) ∨
        ∃ j, m.field? groupNames g.name = some j ∧ g.Decodes s j := by
  simp only [Settings.ofTree?, Option.bind_eq_bind, Option.bind_eq_some_iff] at h
  obtain ⟨fields, hfields, e, he, l, hl, hs⟩ := h
  obtain rfl := Option.some.inj hs
  have hget {name : String} (hname : name ∈ groupNames) :
      Ordered.get? name fields = (m.field? groupNames name).map .ofJson :=
    Json.get?_of_ofTree? hfields hname
  refine ⟨Json.object_or_list_of_ofTree? hfields, fun g => ?_⟩
  cases g with
  | engine => exact group_of_withDefault (hget (by decide)) he
  | loopStop => exact group_of_withDefault (hget (by decide)) hl

/-- Decoded settings have what was given for each of them. -/
theorem valueIn_of_ofTree? {m : Json} {s : Settings} (h : Settings.ofTree? (.ofJson m) = some s)
    (x : Setting) : x.valueIn s = (x.given m).getD x.builtIn := by
  rcases (parts_of_ofTree? h).2 x.group with ⟨hnone, hbuiltIn⟩ | ⟨j, hj, hdecodes⟩
  · rw [given, hnone, valueIn_of_isBuiltIn hbuiltIn]
    rfl
  · rw [given, hj, valueIn_of_decodes hdecodes, Option.bind_some]

theorem not_isObject_valueIn (x : Setting) (s : Settings) : (x.valueIn s).isObject = false := by
  cases x with
  | textMarker =>
    rw [valueIn]
    cases s.loopStop.textMarker <;> rfl
  | _ => rfl

/-! ## Values laid over each other -/

/-- A value in which a setting can only stand by its name. -/
structure OpenAt (x : Setting) (m : Json) : Prop where
  object : m.isObject = true
  group : ∀ j, m.get? x.group.name = some j → j.isObject = true

theorem given_eq_named {x : Setting} {m : Json} (h : x.OpenAt m) : x.given m = x.named m := by
  rw [given, named, Json.field?_of_isObject h.object]
  cases hj : m.get? x.group.name with
  | none => rfl
  | some j => exact Json.field?_of_isObject (h.group j hj) _ _

theorem openAt_of_ofTree? {x : Setting} {m : Json} {s : Settings}
    (h : Settings.ofTree? (.ofJson m) = some s) (hlisted : x.listed m = false) : x.OpenAt m := by
  rw [listed, Bool.or_eq_false_iff] at hlisted
  have hobject : m.isObject = true := by
    rcases (parts_of_ofTree? h).1 with hobject | hlist
    · exact hobject
    · rw [hlisted.1] at hlist
      cases hlist
  refine ⟨hobject, fun j hj => ?_⟩
  have hfield := Json.field?_of_isObject hobject groupNames x.group.name
  rw [hj] at hfield
  rcases (parts_of_ofTree? h).2 x.group with ⟨hnone, -⟩ | ⟨j', hj', hdecodes⟩
  · cases hnone.symm.trans hfield
  · cases hj'.symm.trans hfield
    rcases object_or_list_of_decodes hdecodes with hgroup | hlist
    · exact hgroup
    · rw [hj, Option.bind_some, hlist] at hlisted
      cases hlisted.2

theorem bind_get? (o : Option Json) (key : String) :
    o.bind (Json.get? key) = (o.getD .null).get? key := by
  cases o <;> rfl

/-- Where it matters, a setting that an overlay contains is laid over that of the base, and any
other one stays. -/
theorem named_merge {x : Setting} {base j : Json} (hbase : base.KeysAscend) (hj : j.KeysAscend)
    (hopen : x.OpenAt (base.merge j)) :
    x.named (base.merge j) =
      match x.named j with
      | none => x.named base
      | some v => some (Json.merge ((x.named base).getD .null) v) := by
  have hobject : j.isObject = true := by
    rw [← Json.isObject_merge base j]
    exact hopen.object
  have hmerged := Json.get?_merge hbase hj hobject x.group.name
  rw [named, named]
  cases hgroup : j.get? x.group.name with
  | none =>
    rw [hmerged, hgroup]
    rfl
  | some g =>
    rw [hgroup] at hmerged
    have hg : g.isObject = true := by
      rw [← Json.isObject_merge]
      exact hopen.group _ hmerged
    have hold := hbase.getD_get? x.group.name
    have hnamed : x.named base = ((base.get? x.group.name).getD .null).get? x.key := bind_get? _ _
    rw [hmerged, Option.bind_some, Json.get?_merge hold (hj.of_get? hgroup) hg, hnamed]
    rfl

theorem named_builtIn (x : Setting) : x.named ({} : Settings).toJson = some x.builtIn := by
  cases x <;> rfl

theorem keysAscend_builtIn : ({} : Settings).toJson.KeysAscend := by
  have hengine : ({} : Settings.Engine).toJson.KeysAscend :=
    ⟨Ordered.sorted_of_pairwise_keys (by decide :
      ["default_max_workers", "event_capacity", "log_level", "streaming"].Pairwise (· < ·)),
      trivial, trivial, trivial, trivial, trivial⟩
  have hloopStop : ({} : Settings.LoopStop).toJson.KeysAscend :=
    ⟨Ordered.sorted_of_pairwise_keys (by decide :
      ["text_marker", "tool_name"].Pairwise (· < ·)), trivial, trivial, trivial⟩
  exact ⟨Ordered.sorted_of_pairwise_keys (by decide :
    ["engine", "loop_stop"].Pairwise (· < ·)), hengine, hloopStop, trivial⟩

/-- Over the built-in values, a file gives every setting that it contains. -/
theorem named_merge_builtIn (x : Setting) {j : Json} (hj : j.KeysAscend) :
    (x.named (Json.merge ({} : Settings).toJson j)).getD x.builtIn =
      (x.named j).getD x.builtIn := by
  let base := ({} : Settings).toJson
  have hbuiltIn : ((base.get? x.group.name).getD .null).get? x.key = some x.builtIn := by
    rw [← bind_get?]
    exact named_builtIn x
  have hold := keysAscend_builtIn.getD_get? x.group.name
  cases hobject : j.isObject with
  | false => rw [Json.merge_of_not_object _ hobject]
  | true =>
    have hmerged := Json.get?_merge keysAscend_builtIn hj hobject x.group.name
    rw [named, named]
    cases hgroup : j.get? x.group.name with
    | none =>
      rw [hmerged, hgroup]
      show (x.named base).getD x.builtIn = _
      rw [named_builtIn]
      rfl
    | some g =>
      rw [hgroup] at hmerged
      rw [hmerged, Option.bind_some, Option.bind_some]
      cases hg : g.isObject with
      | false => rw [Json.merge_of_not_object _ hg]
      | true =>
        rw [Json.get?_merge hold (hj.of_get? hgroup) hg, hbuiltIn]
        cases g.get? x.key with
        | none => rfl
        | some v => exact Json.merge_onto (not_isObject_valueIn x {}) v

end Setting

/-! ## Files and the environment -/

namespace Settings

/-- What a settings file holds, if it exists and can be read. -/
def File.content? (f : File) : Option Json :=
  match f.read with
  | .ok content => content
  | .error _ => none

/-- A file laid over a value; a missing one changes nothing. -/
def laid (base : Json) (file : Option Json) : Json :=
  file.elim base base.merge

/-- The built-in settings with the file of the user and then that of the project laid over them. -/
def merged (project global : Option Json) : Json :=
  laid (laid ({} : Settings).toJson global) project

theorem keysAscend_content? {f : File} {j : Json} (h : f.content? = some j) : j.KeysAscend := by
  rw [File.content?, File.read] at h
  cases hsource : f.source with
  | missing =>
    rw [hsource] at h
    cases h
  | unreadable reason =>
    rw [hsource] at h
    cases h
  | text content =>
    rw [hsource] at h
    cases htext : Json.ofText? content with
    | none =>
      simp only [htext] at h
      cases h
    | some j' =>
      simp only [htext] at h
      obtain rfl := Option.some.inj h
      obtain ⟨t, -, ht⟩ := Option.bind_eq_some_iff.mp htext
      exact Json.Tree.keysAscend_of_toJson? ht

theorem layFiles_cons {base m : Json} {f : File} {rest : List File}
    (h : layFiles base (f :: rest) = .ok m) : layFiles (laid base f.content?) rest = .ok m := by
  rw [layFiles] at h
  rw [File.content?]
  cases hread : f.read with
  | error fault =>
    rw [hread] at h
    cases h
  | ok content =>
    rw [hread] at h
    cases content <;> exact h

theorem resolve_eq_ok {global project : File} {env : String → Option String} {s : Settings}
    (h : resolve [global, project] env = .ok s) :
    ∃ s', ofTree? (.ofJson (merged project.content? global.content?)) = some s' ∧
      s = s'.override env := by
  rw [resolve] at h
  cases hlay : layFiles ({} : Settings).toJson [global, project] with
  | error fault =>
    rw [hlay] at h
    cases h
  | ok m =>
    have hm : merged project.content? global.content? = m :=
      Except.ok.inj (layFiles_cons (layFiles_cons hlay))
    rw [hlay] at h
    rw [hm]
    cases htree : ofTree? (.ofJson m) with
    | none =>
      simp only [htree] at h
      cases h
    | some s' =>
      simp only [htree] at h
      exact ⟨s', rfl, (Except.ok.inj h).symm⟩

end Settings

namespace Setting

/-- The environment overrides what it gives. -/
theorem valueIn_override (x : Setting) (env : String → Option String) (s : Settings) :
    x.valueIn (s.override env) = (x.fromEnvironment env).getD (x.valueIn s) := by
  cases x with
  | defaultMaxWorkers =>
    show Json.nat (((env "CONDUCTOR_DEFAULT_MAX_WORKERS").bind
      (Text.unsignedBelow? UInt32.size)).map UInt32.ofNat |>.getD _).toNat = _
    rw [fromEnvironment]
    cases hn : (env "CONDUCTOR_DEFAULT_MAX_WORKERS").bind (Text.unsignedBelow? UInt32.size) with
    | none => rfl
    | some n =>
      obtain ⟨v, -, hv⟩ := Option.bind_eq_some_iff.mp hn
      exact congrArg Json.nat (UInt32.toNat_ofNat_of_lt' (Text.lt_of_unsignedBelow? hv))
  | eventCapacity =>
    show Json.nat (((env "CONDUCTOR_EVENT_CAPACITY").bind
      (Text.unsignedBelow? UInt64.size)).map UInt64.ofNat |>.getD _).toNat = _
    rw [fromEnvironment]
    cases hn : (env "CONDUCTOR_EVENT_CAPACITY").bind (Text.unsignedBelow? UInt64.size) with
    | none => rfl
    | some n =>
      obtain ⟨v, -, hv⟩ := Option.bind_eq_some_iff.mp hn
      exact congrArg Json.nat (UInt64.toNat_ofNat_of_lt' (Text.lt_of_unsignedBelow? hv))
  | streaming =>
    show Json.bool (((env "CONDUCTOR_STREAMING").bind Settings.readBool?).getD _) = _
    rw [fromEnvironment]
    cases (env "CONDUCTOR_STREAMING").bind Settings.readBool? <;> rfl
  | logLevel =>
    show Json.string ((env "CONDUCTOR_LOG_LEVEL").getD _) = _
    rw [fromEnvironment]
    cases env "CONDUCTOR_LOG_LEVEL" <;> rfl
  | toolName =>
    show Json.string ((env "CONDUCTOR_LOOP_STOP_TOOL").getD _) = _
    rw [fromEnvironment]
    cases env "CONDUCTOR_LOOP_STOP_TOOL" <;> rfl
  | textMarker => rfl

theorem keysAscend_laid {file : Option Json} (h : ∀ j ∈ file, j.KeysAscend) :
    (Settings.laid ({} : Settings).toJson file).KeysAscend := by
  cases file with
  | none => exact keysAscend_builtIn
  | some j => exact Json.keysAscend_merge keysAscend_builtIn (h j rfl)

/-- Unless a list stands in the way, a setting has the value of the last file that contains it. -/
theorem named_merged {x : Setting} {project global : Option Json}
    (hproject : ∀ j ∈ project, j.KeysAscend) (hglobal : ∀ j ∈ global, j.KeysAscend)
    (hopen : x.OpenAt (Settings.merged project global))
    (hleaf : ((x.named (Settings.merged project global)).getD x.builtIn).isObject = false) :
    (x.named (Settings.merged project global)).getD x.builtIn =
      ((project.bind x.named).or (global.bind x.named)).getD x.builtIn := by
  let base := Settings.laid ({} : Settings).toJson global
  have hbase : (x.named base).getD x.builtIn = (global.bind x.named).getD x.builtIn := by
    cases global with
    | none =>
      show (x.named ({} : Settings).toJson).getD x.builtIn = x.builtIn
      rw [named_builtIn, Option.getD_some]
    | some j => exact named_merge_builtIn x (hglobal j rfl)
  cases project with
  | none => exact hbase
  | some j =>
    have hnamed : x.named (Settings.merged (some j) global) = _ :=
      named_merge (keysAscend_laid hglobal) (hproject j rfl) hopen
    rw [hnamed] at hleaf ⊢
    rw [Option.bind_some]
    cases hj : x.named j with
    | none => exact hbase
    | some v =>
      rw [hj] at hleaf
      simp only [Option.getD_some, Json.isObject_merge] at hleaf
      exact Json.merge_of_not_object _ hleaf

theorem valueIn_of_unlisted {global project : Settings.File} {env : String → Option String}
    {s : Settings} (h : Settings.resolve [global, project] env = .ok s) {x : Setting}
    (hlisted : x.listed (Settings.merged project.content? global.content?) = false) :
    x.valueIn s = x.layered env project.content? global.content? := by
  obtain ⟨s', hdecode, rfl⟩ := Settings.resolve_eq_ok h
  have hvalue := valueIn_of_ofTree? hdecode x
  have hopen := openAt_of_ofTree? hdecode hlisted
  rw [given_eq_named hopen] at hvalue
  have hleaf := not_isObject_valueIn x s'
  rw [hvalue] at hleaf
  have hnamed := named_merged (fun _ => Settings.keysAscend_content?)
    (fun _ => Settings.keysAscend_content?) hopen hleaf
  rw [valueIn_override, layered, hvalue, hnamed]
  cases x.fromEnvironment env <;> rfl

theorem valueIn_of_listed {global project : Settings.File} {env : String → Option String}
    {s : Settings} (h : Settings.resolve [global, project] env = .ok s) (x : Setting) :
    x.valueIn s = (x.fromEnvironment env).getD
      ((x.given (Settings.merged project.content? global.content?)).getD x.builtIn) := by
  obtain ⟨s', hdecode, rfl⟩ := Settings.resolve_eq_ok h
  rw [valueIn_override, valueIn_of_ofTree? hdecode x]

/-- In settings that were resolved, a setting has the value that the order of the layers gives it
exactly when the environment gives it, no list stands in the way of its name, or the list happens to
say the same. -/
theorem valueIn_eq_layered_iff {global project : Settings.File} {env : String → Option String}
    {s : Settings} (h : Settings.resolve [global, project] env = .ok s) (x : Setting) :
    let m := Settings.merged project.content? global.content?
    let value := x.layered env project.content? global.content?
    x.valueIn s = value ↔
      (x.fromEnvironment env = none → x.listed m = true → (x.given m).getD x.builtIn = value) := by
  intro m value
  cases hlisted : x.listed m with
  | false => simpa using valueIn_of_unlisted h hlisted
  | true =>
    rw [valueIn_of_listed h x]
    cases henv : x.fromEnvironment env with
    | none => simp [m]
    | some v => simp [value, layered, henv]

/-- The two files and the environment each give something, and every setting has its value. -/
theorem valueIn_eq_layered_overridden :
    let global : Settings.File :=
      ⟨"settings.json", .text
        "\x7b\"engine\":\x7b\"default_max_workers\":3,\"log_level\":\"debug\"\x7d\x7d"⟩
    let project : Settings.File :=
      ⟨".conductor/settings.json", .text "\x7b\"engine\":\x7b\"default_max_workers\":5\x7d\x7d"⟩
    let env : String → Option String :=
      fun name => if name = "CONDUCTOR_LOG_LEVEL" then some "warn" else none
    let s : Settings := { engine := { defaultMaxWorkers := 5, logLevel := "warn" } }
    Settings.resolve [global, project] env = .ok s ∧
      ∀ x : Setting, x.valueIn s = x.layered env project.content? global.content? := by
  intro global project env s
  have hresolve : Settings.resolve [global, project] env = .ok s := by decide +kernel
  have hproject : project.content? =
      some (.object [("engine", .object [("default_max_workers", .nat 5)])]) := by decide +kernel
  have hglobal : global.content? =
      some (.object [("engine", .object [("default_max_workers", .nat 3),
        ("log_level", .string "debug")])]) := by decide +kernel
  refine ⟨hresolve, fun x => (valueIn_eq_layered_iff hresolve x).mpr fun _ hlisted => ?_⟩
  -- neither file is a list or has one for a group
  have hunlisted : x.listed (Settings.merged project.content? global.content?) = false := by
    rw [hproject, hglobal]
    cases x <;> decide
  rw [hunlisted] at hlisted
  cases hlisted

/-- A list over the settings of the user: the worker count that only their file contains is reset,
although the file of the project contains nothing. -/
theorem valueIn_ne_layered_list :
    let global : Settings.File :=
      ⟨"settings.json", .text "\x7b\"engine\":\x7b\"default_max_workers\":3\x7d\x7d"⟩
    let project : Settings.File := ⟨".conductor/settings.json", .text "[]"⟩
    let env : String → Option String := fun _ => none
    Settings.resolve [global, project] env = .ok {} ∧
      valueIn {} defaultMaxWorkers ≠
        defaultMaxWorkers.layered env project.content? global.content? := by
  decide +kernel

/-! ## Files without lists -/

theorem items?_of_isObject {j : Json} (h : j.isObject = true) : j.items? = none := by
  cases j with
  | object members => rfl
  | _ => cases h

theorem listed_merge {x : Setting} {base j : Json} (hbase : base.KeysAscend) (hj : j.KeysAscend)
    (h : x.listed (base.merge j) = true) : x.listed base = true ∨ x.listed j = true := by
  cases hobject : j.isObject with
  | false =>
    rw [Json.merge_of_not_object base hobject] at h
    exact .inr h
  | true =>
    have hmerge : (base.merge j).isObject = true := by rw [Json.isObject_merge, hobject]
    rw [listed, items?_of_isObject hmerge, Json.get?_merge hbase hj hobject] at h
    rw [listed, listed]
    cases hgroup : j.get? x.group.name with
    | none =>
      rw [hgroup] at h
      refine .inl (Bool.or_eq_true_iff.mpr (.inr ?_))
      simpa using h
    | some g =>
      rw [hgroup] at h
      refine .inr (Bool.or_eq_true_iff.mpr (.inr ?_))
      cases hg : g.isObject with
      | true => simp [items?_of_isObject, Json.isObject_merge, hg] at h
      | false => simpa [Json.merge_of_not_object _ hg] using h

theorem listed_merged {x : Setting} {project global : Option Json}
    (hproject : ∀ j ∈ project, j.KeysAscend) (hglobal : ∀ j ∈ global, j.KeysAscend)
    (h : x.listed (Settings.merged project global) = true) :
    project.any x.listed = true ∨ global.any x.listed = true := by
  have hbuiltIn : x.listed ({} : Settings).toJson = false := by cases x <;> rfl
  have hbase (hlaid : x.listed (Settings.laid ({} : Settings).toJson global) = true) :
      global.any x.listed = true := by
    cases global with
    | none =>
      have hlaid : x.listed ({} : Settings).toJson = true := hlaid
      rw [hbuiltIn] at hlaid
      cases hlaid
    | some j =>
      rcases listed_merge keysAscend_builtIn (hglobal j rfl) hlaid with hlist | hlist
      · rw [hbuiltIn] at hlist
        cases hlist
      · exact hlist
  cases project with
  | none => exact .inr (hbase h)
  | some j =>
    exact (listed_merge (keysAscend_laid hglobal) (hproject j rfl) h).symm.imp id hbase

/-- The order of the layers decides every setting that stands in no list of either file. -/
theorem valueIn_eq_layered {global project : Settings.File} {env : String → Option String}
    {s : Settings} (h : Settings.resolve [global, project] env = .ok s) {x : Setting}
    (hproject : project.content?.any x.listed = false)
    (hglobal : global.content?.any x.listed = false) :
    x.valueIn s = x.layered env project.content? global.content? := by
  apply valueIn_of_unlisted h
  rw [← Bool.not_eq_true]
  intro hlisted
  rcases listed_merged (fun _ => Settings.keysAscend_content?)
    (fun _ => Settings.keysAscend_content?) hlisted with hlist | hlist
  · rw [hproject] at hlist
    cases hlist
  · rw [hglobal] at hlist
    cases hlist

end Setting

end Ensemble
