import Mathlib.Data.List.Nodup
import PolicyEditor.Json.Basic

/-!
Keys of members: looking a key up, and putting members one after another.
-/

namespace PolicyEditor.Json

variable {α β : Type}

/-- Members of other values, which may depend on their keys. -/
theorem find?_map_keyed (f : String → α → β) (key : String) (members : List (String × α)) :
    find? key (members.map fun m => (m.1, f m.1 m.2)) = (find? key members).map (f key) := by
  induction members with
  | nil => rfl
  | cons m rest ih =>
    simp only [List.map_cons, find?]
    split
    · rename_i hkey
      rw [hkey]
      rfl
    · exact ih

theorem find?_map (f : α → β) (key : String) (members : List (String × α)) :
    find? key (members.map fun m => (m.1, f m.2)) = (find? key members).map f :=
  find?_map_keyed (fun _ => f) key members

theorem mem_of_find? {key : String} {members : List (String × α)} {value : α}
    (h : find? key members = some value) : (key, value) ∈ members := by
  induction members with
  | nil => cases h
  | cons m rest ih =>
    simp only [find?] at h
    split at h
    · rename_i hkey
      cases h
      rw [← hkey]
      exact List.mem_cons_self
    · exact List.mem_cons_of_mem _ (ih h)

/-- Of members with different keys each is found. -/
theorem find?_of_mem {members : List (String × α)} {m : String × α}
    (hkeys : (members.map Prod.fst).Nodup) (h : m ∈ members) :
    find? m.1 members = some m.2 := by
  induction members with
  | nil => cases h
  | cons first rest ih =>
    simp only [List.map_cons, List.nodup_cons] at hkeys
    rcases List.mem_cons.mp h with rfl | hrest
    · simp only [find?, if_true]
    · have hne : first.1 ≠ m.1 := fun heq => hkeys.1 (heq ▸ List.mem_map_of_mem hrest)
      simp only [find?, if_neg hne]
      exact ih hkeys.2 hrest

theorem map_fst_put (key : String) (value : α) (members : List (String × α)) :
    (put key value members).map Prod.fst =
      if key ∈ members.map Prod.fst then members.map Prod.fst
      else members.map Prod.fst ++ [key] := by
  induction members with
  | nil => rfl
  | cons m rest ih =>
    obtain ⟨k, v⟩ := m
    by_cases hkey : k = key
    · simp only [put, hkey, if_true, List.map_cons, List.mem_cons, true_or]
    · simp only [put, hkey, if_false, List.map_cons, ih, List.mem_cons, Ne.symm hkey, false_or]
      split <;> rfl

/-- A new key comes last. -/
theorem put_of_notMem {key : String} {members : List (String × α)} (value : α)
    (h : key ∉ members.map Prod.fst) : put key value members = members ++ [(key, value)] := by
  induction members with
  | nil => rfl
  | cons m rest ih =>
    obtain ⟨k, v⟩ := m
    simp only [List.map_cons, List.mem_cons, not_or] at h
    rw [put, if_neg (Ne.symm h.1), ih h.2]
    rfl

theorem nodup_put {key : String} {members : List (String × α)} (value : α)
    (h : (members.map Prod.fst).Nodup) : ((put key value members).map Prod.fst).Nodup := by
  rw [map_fst_put]
  split
  · exact h
  · rename_i hkey
    exact List.nodup_append.mpr ⟨h, List.nodup_singleton _, by
      intro k hk last hlast heq
      rw [List.mem_singleton.mp hlast] at heq
      exact hkey (heq ▸ hk)⟩

/-- Putting one member after another, a key at a time. -/
theorem nodup_foldl_put (members acc : List (String × α)) (h : (acc.map Prod.fst).Nodup) :
    ((members.foldl (fun acc m => put m.1 m.2 acc) acc).map Prod.fst).Nodup := by
  induction members generalizing acc with
  | nil => exact h
  | cons m rest ih => exact ih _ (nodup_put m.2 h)

/-- Members of different keys are put as they stand. -/
theorem foldl_put_of_nodup {members acc : List (String × α)}
    (h : ((acc ++ members).map Prod.fst).Nodup) :
    members.foldl (fun acc m => put m.1 m.2 acc) acc = acc ++ members := by
  induction members generalizing acc with
  | nil => exact (List.append_nil acc).symm
  | cons m rest ih =>
    have hnew : m.1 ∉ acc.map Prod.fst := by
      rw [List.map_append, List.nodup_append] at h
      exact fun hm => h.2.2 _ hm _ List.mem_cons_self rfl
    have hsplit : acc ++ m :: rest = acc ++ [m] ++ rest := by
      rw [List.append_assoc, List.singleton_append]
    rw [List.foldl_cons, put_of_notMem m.2 hnew, hsplit]
    exact ih (hsplit ▸ h)

theorem mem_put {key : String} {value : α} {members : List (String × α)} {m : String × α}
    (h : m ∈ put key value members) : m = (key, value) ∨ m ∈ members := by
  induction members with
  | nil => exact .inl (List.mem_singleton.mp h)
  | cons first rest ih =>
    obtain ⟨k, v⟩ := first
    by_cases hkey : k = key
    · simp only [put, hkey, if_true, List.mem_cons] at h
      rcases h with rfl | h
      · exact .inl rfl
      · exact .inr (List.mem_cons_of_mem _ h)
    · simp only [put, hkey, if_false, List.mem_cons] at h
      rcases h with rfl | h
      · exact .inr List.mem_cons_self
      · exact (ih h).imp_right (List.mem_cons_of_mem _)

/-- What is put comes from the members. -/
theorem mem_foldl_put {members acc : List (String × α)} {m : String × α}
    (h : m ∈ members.foldl (fun acc m => put m.1 m.2 acc) acc) : m ∈ members ∨ m ∈ acc := by
  induction members generalizing acc with
  | nil => exact .inr h
  | cons first rest ih =>
    rcases ih h with hrest | hacc
    · exact .inl (List.mem_cons_of_mem _ hrest)
    · rcases mem_put hacc with rfl | hacc
      · exact .inl List.mem_cons_self
      · exact .inr hacc

/-- The last member of a key is the one that is found. -/
theorem find?_foldl_put_append {key : String} {value : α} {back : List (String × α)}
    (front acc : List (String × α)) (hback : key ∉ back.map Prod.fst) :
    find? key ((front ++ (key, value) :: back).foldl (fun acc m => put m.1 m.2 acc) acc) =
      some value := by
  rw [List.foldl_append, List.foldl_cons]
  generalize hstart : put key value _ = start
  have hfound : find? key start = some value := hstart ▸ find?_put_self key value _
  clear hstart
  induction back generalizing start with
  | nil => exact hfound
  | cons m rest ih =>
    simp only [List.map_cons, List.mem_cons, not_or] at hback
    exact ih hback.2 _ ((find?_put_of_ne _ _ hback.1).trans hfound)

end PolicyEditor.Json
