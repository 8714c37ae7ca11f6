import Ensemble.Proofs.Delta.Carried
import Ensemble.Proofs.Json.Present

/-!
Deltas as they are written and read.  A writer lays the fields of a delta out in the order of their
declaration and leaves out what holds nothing; whatever the delta holds, reading its text gives the
delta again.
-/

namespace Ensemble

open Json (Plain)
open Json.Tree (Says)

/-! ## Fragments of tool calls -/

namespace CallFragment

/-- The fields in the order of their declaration. -/
def fields (f : CallFragment) : List (String × Option Json) :=
  [("index", some (.nat f.index.toNat)), ("id", f.id.map .string), ("name", f.name.map .string),
    ("arguments", f.arguments.map .string)]

/-- A fragment as a writer lays it out. -/
def layout (f : CallFragment) : Json :=
  .object (Json.present f.fields)

/-- The fields in the order of their keys. -/
def sortedFields (f : CallFragment) : List (String × Option Json) :=
  [("arguments", f.arguments.map .string), ("id", f.id.map .string),
    ("index", some (.nat f.index.toNat)), ("name", f.name.map .string)]

theorem toJson_eq (f : CallFragment) : f.toJson = .object (Json.present f.sortedFields) := by
  simp [toJson, Json.present, sortedFields, Json.member?]

theorem fields_perm (f : CallFragment) : f.fields.Perm f.sortedFields := by
  have hlast := List.perm_append_singleton ("arguments", f.arguments.map Json.string)
    [("index", some (.nat f.index.toNat)), ("id", f.id.map .string), ("name", f.name.map .string)]
  exact hlast.trans ((List.Perm.swap _ _ _).cons _)

theorem plain_nat_index (limit : Nat) (f : CallFragment) : Plain limit (.nat f.index.toNat) := by
  apply Json.plain_nat
  have := f.index.toNat_lt
  simp only [UInt64.size]
  omega

theorem says_layout (f : CallFragment) : Says f.layout f.toJson := by
  rw [layout, toJson_eq]
  refine Json.says_present ?_ f.fields_perm (by simp only [sortedFields, List.map]; decide)
  have hindex : Says (.nat f.index.toNat) (.nat f.index.toNat) := rfl
  simp [fields, Json.rel_says_string, hindex]

theorem plain_layout (f : CallFragment) : Plain 1 f.layout := by
  apply Json.plain_present
  simp [fields, Json.plain_string, plain_nat_index]

theorem inRecord_toJson (f : CallFragment) : f.InRecord f.toJson := by
  have hget (key : String) : Json.get? key f.toJson = (Ordered.get? key f.sortedFields).join := by
    rw [toJson_eq]
    exact Json.get?_present key (by simp only [sortedFields, List.map]; decide)
  constructor <;> simp [hget, sortedFields, Json.holds_self]

end CallFragment

/-! ## Deltas -/

namespace Usage

theorem plain_toJson (u : Usage) : Plain 1 u.toJson := by
  apply Json.plain_object
  have hinput := Json.plain_nat 0 u.inputTokens.toNat_lt
  have houtput := Json.plain_nat 0 u.outputTokens.toNat_lt
  simp [hinput, houtput]

theorem says_toJson (u : Usage) : Says u.toJson u.toJson := by
  have hnat (n : Nat) : Says (.nat n) (.nat n) := rfl
  apply Json.Tree.says_object (List.forall₂_same.mpr ?_) (List.Perm.refl _)
  · exact Ordered.sorted_of_pairwise_keys
      (by decide : ["input_tokens", "output_tokens"].Pairwise (· < ·))
  · simp [hnat]

theorem counted_toJson (u : Usage) : u.Counted "input_tokens" "output_tokens" u.toJson :=
  ⟨rfl, rfl⟩

end Usage

namespace Delta

/-- The fields in the order of their declaration; the calls are laid out by `call`. -/
def fields (call : CallFragment → Json) (d : Delta) : List (String × Option Json) :=
  [("text", d.text.map .string), ("tool_calls", list? call d.toolCalls),
    ("finish_reason", d.finishReason.map .string), ("usage", d.usage.map Usage.toJson)]

/-- A delta as a writer lays it out. -/
def layout (d : Delta) : Json :=
  .object (Json.present (d.fields CallFragment.layout))

/-- The fields in the order of their keys. -/
def sortedFields (d : Delta) : List (String × Option Json) :=
  [("finish_reason", d.finishReason.map .string), ("text", d.text.map .string),
    ("tool_calls", list? CallFragment.toJson d.toolCalls), ("usage", d.usage.map Usage.toJson)]

theorem toJson_eq (d : Delta) : d.toJson = .object (Json.present d.sortedFields) := by
  simp [toJson, Json.present, sortedFields]

theorem fields_perm (d : Delta) : (d.fields CallFragment.toJson).Perm d.sortedFields := by
  have hfirst := List.perm_append_singleton ("finish_reason", d.finishReason.map Json.string)
    [("text", d.text.map .string), ("tool_calls", list? CallFragment.toJson d.toolCalls)]
  exact hfirst.append_right [("usage", d.usage.map Usage.toJson)]

theorem rel_says_list? (fs : List CallFragment) :
    Option.Rel Says (list? CallFragment.layout fs) (list? CallFragment.toJson fs) := by
  cases fs with
  | nil => exact Option.Rel.none
  | cons f fs =>
    apply Option.Rel.some
    apply Json.Tree.says_array
    rw [List.forall₂_map_left_iff, List.forall₂_map_right_iff, List.forall₂_same]
    exact fun f _ => f.says_layout

theorem plain_of_mem_list? {fs : List CallFragment} :
    ∀ j ∈ list? CallFragment.layout fs, Plain 2 j := by
  intro j hj
  cases fs with
  | nil => cases hj
  | cons f fs =>
    cases hj
    apply Json.plain_array
    intro j hj
    obtain ⟨f, -, rfl⟩ := List.mem_map.mp hj
    exact f.plain_layout

theorem says_layout (d : Delta) : Says d.layout d.toJson := by
  rw [layout, toJson_eq]
  refine Json.says_present ?_ d.fields_perm (by simp only [sortedFields, List.map]; decide)
  have husage : Option.Rel Says (d.usage.map Usage.toJson) (d.usage.map Usage.toJson) := by
    cases d.usage with
    | none => exact Option.Rel.none
    | some u => exact Option.Rel.some u.says_toJson
  simp [fields, Json.rel_says_string, rel_says_list?, husage]

theorem plain_layout (d : Delta) : Plain 3 d.layout := by
  apply Json.plain_present
  have husage : ∀ j ∈ d.usage.map Usage.toJson, Plain 2 j := by
    intro j hj
    obtain ⟨u, -, rfl⟩ := Option.map_eq_some_iff.mp hj
    exact ⟨u.plain_toJson.whole, Nat.le_succ_of_le u.plain_toJson.shallow⟩
  simp only [fields, List.forall_mem_cons, List.not_mem_nil, false_imp_iff, implies_true, and_true]
  exact ⟨Json.plain_of_mem_string, plain_of_mem_list?, Json.plain_of_mem_string, husage⟩

theorem inRecord_toJson (d : Delta) : d.InRecord d.toJson := by
  have hget (key : String) : Json.get? key d.toJson = (Ordered.get? key d.sortedFields).join := by
    rw [toJson_eq]
    exact Json.get?_present key (by simp only [sortedFields, List.map]; decide)
  constructor
  case object => rfl
  case unchosen => simp [hget, sortedFields]
  case text => simp [hget, sortedFields, Json.holds_self]
  case finishReason => simp [hget, sortedFields, Json.holds_self]
  case toolCalls =>
    have hcalls : Json.get? "tool_calls" d.toJson = list? CallFragment.toJson d.toolCalls := by
      simp [hget, sortedFields]
    rw [hcalls]
    exact CallFragment.listed_list? CallFragment.inRecord_toJson d.toolCalls
  case usage =>
    have husage : Json.get? "usage" d.toJson = d.usage.map Usage.toJson := by
      simp [hget, sortedFields]
    rw [husage]
    exact Usage.reported_map Usage.counted_toJson d.usage

theorem keysAscend_toJson (d : Delta) : d.toJson.KeysAscend :=
  Json.Tree.keysAscend_of_toJson? d.says_layout

/-- A delta is read with the very fields it was written with. -/
theorem ofJson?_toJson (d : Delta) : ofJson? d.toJson = .ok d :=
  d.inRecord_toJson.ofJson? d.keysAscend_toJson

/-- The text that a writer gives a delta, all on one line. -/
def written (d : Delta) : List Char :=
  d.layout.write

theorem ofLine?_written (d : Delta) : ofLine? (String.ofList d.written) = .ok d := by
  have hplain : Plain Json.nestingLimit d.layout :=
    ⟨d.plain_layout.whole, Nat.le_trans d.plain_layout.shallow (by decide)⟩
  rw [ofLine?, written, Json.ofText?_write hplain d.says_layout]
  exact d.ofJson?_toJson

theorem not_control_of_mem_written {d : Delta} {x : Char} (h : x ∈ d.written) : 0x20 ≤ x.toNat :=
  Json.not_control_of_mem_write d.plain_layout.whole h

/-- The text of a delta begins and ends with a brace. -/
theorem written_eq (d : Delta) :
    d.written =
      '\x7b' :: Json.writeMembers (Json.present (d.fields CallFragment.layout)) ++ ['\x7d'] := by
  rw [written, layout, Json.write]

end Delta

end Ensemble
