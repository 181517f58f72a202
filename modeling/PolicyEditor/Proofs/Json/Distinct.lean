import PolicyEditor.Proofs.Json.Keys
import PolicyEditor.Proofs.Json.Reading

/-!
Decoded documents hold no key twice: of members with the same key the decoder keeps one, in every
object of the document.
-/

namespace PolicyEditor.Json

mutual

/-- No object has two members of the same key, however deep it stands. -/
def KeysApart : Json → Prop
  | .arr elements => AllKeysApart elements
  | .obj members => (members.map Prod.fst).Nodup ∧ MembersKeysApart members
  | _ => True

def AllKeysApart : List Json → Prop
  | [] => True
  | v :: rest => KeysApart v ∧ AllKeysApart rest

def MembersKeysApart : List (String × Json) → Prop
  | [] => True
  | (_, v) :: rest => KeysApart v ∧ MembersKeysApart rest

end

theorem allKeysApart_iff {elements : List Json} :
    AllKeysApart elements ↔ ∀ v ∈ elements, KeysApart v := by
  induction elements with
  | nil => simp only [AllKeysApart, List.not_mem_nil, false_implies, implies_true]
  | cons v rest ih => simp only [AllKeysApart, ih, List.forall_mem_cons]

theorem membersKeysApart_iff {members : List (String × Json)} :
    MembersKeysApart members ↔ ∀ m ∈ members, KeysApart m.2 := by
  induction members with
  | nil => simp only [MembersKeysApart, List.not_mem_nil, false_implies, implies_true]
  | cons m rest ih => simp only [MembersKeysApart, ih, List.forall_mem_cons]

theorem keysApart_of_isWord {v : Json} (h : isWord v = true) : KeysApart v := by
  cases v with
  | null | bool _ | int _ | float _ => trivial
  | str _ | arr _ | obj _ => cases h

theorem keysApart_objectOf {ms : List Member} (h : ∀ m ∈ ms, KeysApart m.value) :
    KeysApart (objectOf ms) := by
  refine ⟨nodup_foldl_put _ _ List.nodup_nil, membersKeysApart_iff.mpr fun p hp => ?_⟩
  rcases mem_foldl_put hp with hp | hp
  · obtain ⟨m, hm, rfl⟩ := List.mem_map.mp hp
    exact h m hm
  · cases hp

theorem keysApart_closed : ClosedUnderReading fun _ v _ => KeysApart v where
  word hword := keysApart_of_isWord hword.isWord
  text _ _ := trivial
  emptyArray _ := trivial
  array helements := allKeysApart_iff.mpr (helements.forall_mem KeysApart fun hv => hv)
  emptyObject _ := ⟨List.nodup_nil, trivial⟩
  object hmembers := keysApart_objectOf <| hmembers.forall_mem (fun m => KeysApart m.value)
    fun hm => hm.value.choose_spec

/-- A decoded document holds no key twice. -/
theorem keysApart_of_decode? {s : List Char} {v : Json} (h : decode? s = some v) :
    KeysApart v := by
  obtain ⟨_, hv, -⟩ := decode?_reads keysApart_closed h
  exact hv

end PolicyEditor.Json
