import PolicyEditor.Completion.Basic
import PolicyEditor.Proofs.Json.Distinct
import PolicyEditor.Proofs.Json.Nesting
import PolicyEditor.Proofs.Path.Descent
import PolicyEditor.Proofs.Path.Extension

/-!
Members that completion offers. Each stands for a member of the schema that its path leads to; its
label, written after the path, reads as that member exactly if its key is a name.
-/

namespace PolicyEditor.Completion

open PolicyEditor.Path (Segment Apart EndsBlank readAll segment? readAll_cons readAll_cases
  parse_append)
open PolicyEditor.Schema (Context Root ofJson)
open PolicyEditor.Text (isBlank isNameStart isNameChar)

def extendedText (parent : List Char) (item : Item) : List Char :=
  if item.inArray then parent ++ item.label.toList else parent ++ '.' :: item.label.toList

def memberPath (p : Path) (inArray : Bool) (key : String) : Path :=
  ⟨p.root, p.segments ++ ((if inArray then [.index "_"] else []) ++ [.name key])⟩

/-! ### Writing members -/

def memberText (inArray : Bool) (key : List Char) : List Char :=
  (if inArray then ['[', '_', ']'] else []) ++ '.' :: key

theorem extendedText_memberItem (parent : List Char) (inArray : Bool) (key : String)
    (member : Schema) : extendedText parent (memberItem inArray key member) =
      parent ++ memberText inArray key.toList := by
  cases inArray with
  | false => simp [extendedText, memberItem, memberText]
  | true => simp [extendedText, memberItem, memberText, arrayMarker]

theorem apart_memberText (inArray : Bool) (key : List Char) : Apart (memberText inArray key) := by
  intro c hc
  cases inArray <;> cases hc <;> decide +kernel

theorem isNameChar_of_isName {s : List Char} (h : isName s = true) :
    ∀ c ∈ s, isNameChar c = true := by
  cases s with
  | nil => cases h
  | cons c rest =>
    obtain ⟨hstart, hrest⟩ := Bool.and_eq_true_iff.mp h
    exact List.forall_mem_cons.mpr
      ⟨Text.isNameChar_of_isNameStart hstart, List.all_eq_true.mp hrest⟩

/-- A name is the whole segment that a dot begins. -/
theorem segment?_name {key : List Char} (h : isName key = true) :
    segment? ('.' :: key) = some (.name key, []) := by
  cases key with
  | nil => cases h
  | cons c rest =>
    obtain ⟨hstart, hrest⟩ := Bool.and_eq_true_iff.mp h
    have hall := List.all_eq_true.mp hrest
    simp only [segment?, hstart, if_true, List.takeWhile_eq_self_iff.mpr hall,
      List.dropWhile_eq_nil_iff.mpr hall]

/-- What a dot begins is one segment of this name only if all of it is the name. -/
theorem isName_of_segment? {key : String} {rest : List Char} {written : Path.Written}
    (h : segment? ('.' :: key.toList) = some (written, rest))
    (hread : written.read = .ok (.name key)) : isName key.toList = true := by
  cases hkey : key.toList with
  | nil =>
    rw [hkey] at h
    cases h
  | cons c tail =>
    simp only [hkey, segment?] at h
    by_cases hstart : isNameStart c = true
    · rw [if_pos hstart] at h
      obtain ⟨rfl, -⟩ := Prod.mk.inj (Option.some.inj h)
      have hname : String.ofList (c :: tail.takeWhile isNameChar) = key :=
        Segment.name.inj (Except.ok.inj hread)
      have hlist := congrArg String.toList hname
      rw [String.toList_ofList, hkey] at hlist
      have hall := List.takeWhile_eq_self_iff.mp (List.cons.inj hlist).2
      exact Bool.and_eq_true_iff.mpr ⟨hstart, List.all_eq_true.mpr hall⟩
    · rw [if_neg hstart] at h
      split at h
      · obtain ⟨rfl, -⟩ := Prod.mk.inj (Option.some.inj h)
        cases hread
      · cases h

theorem readAll_dot_iff (key : String) :
    readAll ('.' :: key.toList) = .ok (some [.name key]) ↔ isName key.toList = true := by
  constructor
  · intro h
    rcases readAll_cases h with ⟨hblank, -⟩ |
      ⟨written, rest, first, more, hsegment, hread, -, hfound⟩
    · exact absurd (List.all_eq_true.mp hblank '.' List.mem_cons_self) (by decide)
    · exact isName_of_segment? hsegment ((List.cons.inj hfound).1 ▸ hread)
  · intro h
    rw [readAll_cons (segment?_name h)]
    simp only [Path.Written.read, String.ofList_toList]
    rfl

theorem readAll_memberText_iff (inArray : Bool) (key : String) :
    readAll (memberText inArray key.toList) =
        .ok (some ((if inArray then [.index "_"] else []) ++ [.name key])) ↔
      isName key.toList = true := by
  cases inArray with
  | false => exact readAll_dot_iff key
  | true =>
    have hsegment : segment? (memberText true key.toList) =
        some (.index ['_'], '.' :: key.toList) := rfl
    rw [readAll_cons hsegment, ← readAll_dot_iff]
    simp only [Path.Written.read, bind, Except.bind]
    cases readAll ('.' :: key.toList) with
    | error e => constructor <;> intro h <;> cases h
    | ok found =>
      cases found with
      | none => constructor <;> intro h <;> cases h
      | some more =>
        show Except.ok (some (.index "_" :: more)) = _ ↔ _
        simp

/-- After a blank no member can be read. -/
theorem readAll_blank_append {blanks : List Char} (hne : blanks ≠ [])
    (h : blanks.all isBlank = true) (inArray : Bool) (key : List Char) :
    readAll (blanks ++ memberText inArray key) = .ok none := by
  obtain ⟨b, rest, rfl⟩ := List.exists_cons_of_ne_nil hne
  have hb := List.all_eq_true.mp h b List.mem_cons_self
  refine Path.readAll_of_segment?_none (fun hall => ?_) ?_
  · have hdot := List.all_eq_true.mp hall '.' (by simp [memberText])
    exact absurd hdot (by decide)
  · simp only [List.cons_append, segment?]
    split
    · rename_i heq
      rw [(List.cons.inj heq).1] at hb
      exact absurd hb (by decide)
    · rename_i heq
      rw [(List.cons.inj heq).1] at hb
      exact absurd hb (by decide)
    · rfl

/-- A member written after a path reads as the path to it exactly if its key is a name and no blank
ends the path. -/
theorem parse_memberText_iff {parent : List Char} {p : Path} (h : Path.parse parent = .ok (some p))
    (inArray : Bool) (key : String) :
    Path.parse (parent ++ memberText inArray key.toList) = .ok (some (memberPath p inArray key)) ↔
      isName key.toList = true ∧ ¬ EndsBlank parent := by
  obtain ⟨blanks, hblanks, hend, happend⟩ := parse_append h
  rw [happend _ (apart_memberText inArray _)]
  by_cases hnil : blanks = []
  · have hparent := hend.mp hnil
    rw [hnil, List.nil_append, ← readAll_memberText_iff inArray key]
    cases readAll (memberText inArray key.toList) with
    | error e => exact ⟨nofun, fun h => nomatch h.1⟩
    | ok found =>
      cases found with
      | none => exact ⟨nofun, fun h => nomatch h.1⟩
      | some more => simp [Except.map, memberPath, hparent]
  · rw [readAll_blank_append hnil hblanks]
    exact ⟨nofun, fun h => absurd (hend.mpr h.2) hnil⟩

/-! ### Candidates -/

theorem mem_memberItems {inArray : Bool} {start : List Char} {members : List (String × Schema)}
    {item : Item} (h : item ∈ memberItems inArray start members) :
    ∃ m ∈ members, start <+: m.1.toList ∧ item = memberItem inArray m.1 m.2 := by
  simp only [memberItems, List.mem_map, List.mem_filter, List.isPrefixOf_iff_prefix] at h
  obtain ⟨m, ⟨hm, hstart⟩, rfl⟩ := h
  exact ⟨m, hm, hstart, rfl⟩

/-- The schema of an object without repeated keys does not repeat them. -/
theorem nodup_of_unlabelled {members : List (String × Schema)} {sample : Json}
    {source : Option String} {v : Json} (hkeys : v.KeysApart)
    (h : (Schema.object members sample source).unlabelled = ofJson none v) :
    (members.map Prod.fst).Nodup := by
  cases v with
  | obj ms =>
    simp only [Schema.unlabelled, ofJson, Schema.object.injEq, Schema.unlabelledMembers_eq_map,
      Schema.membersOf_eq_map] at h
    have hfst := congrArg (List.map Prod.fst) h.1
    simp only [List.map_map, Function.comp_def] at hfst
    show (members.map fun m => m.1).Nodup
    rw [hfst]
    exact hkeys.1
  | _ => cases h

/-- What is offered below the schema of a value are members that a name leads to, behind an index in
an array. -/
theorem mem_itemsBelow {start : List Char} {node : Schema} {v : Json} {item : Item}
    (hnode : node.unlabelled = ofJson none v) (hkeys : v.KeysApart)
    (h : item ∈ itemsBelow start node) :
    ∃ inArray key member, item = memberItem inArray key member ∧
      Path.follow (some node) ((if inArray then [.index "_"] else []) ++ [.name key]) =
        some member := by
  unfold itemsBelow at h
  split at h
  · obtain ⟨m, hm, -, rfl⟩ := mem_memberItems h
    exact ⟨false, m.1, m.2, rfl, Json.find?_of_mem (nodup_of_unlabelled hkeys hnode) hm⟩
  · rename_i members sample source _ _
    obtain ⟨m, hm, -, rfl⟩ := mem_memberItems h
    cases v with
    | arr elements =>
      cases elements with
      | nil => cases hnode
      | cons first rest =>
        have hfirst : (Schema.object members sample source).unlabelled = ofJson none first :=
          Option.some.inj (Schema.array.inj hnode).1
        have hnodup := nodup_of_unlabelled hkeys.1 hfirst
        exact ⟨true, m.1, m.2, rfl, Json.find?_of_mem hnodup hm⟩
    | _ => cases hnode
  · cases h

/-- Properties are offered below what the path before the last dot leads to. -/
theorem pathItems_property {context : Context} {typed : List Char} {items : List Item} {item : Item}
    (hitems : pathItems context typed = .ok items) (hitem : item ∈ items)
    (hproperty : item.category = .property) :
    ∃ parent tail p node, splitLastDot? (Text.strip typed) = some (parent, tail) ∧
      Path.parse parent = .ok (some p) ∧ Path.lookup context p = some node ∧
      item ∈ itemsBelow tail node := by
  simp only [pathItems] at hitems
  split at hitems
  · cases hitems
    simp only [rootItems] at hitem
    split at hitem
    · cases hitem
    · obtain ⟨root, -, rfl⟩ := List.mem_map.mp hitem
      cases hproperty
  · split at hitems
    · cases hitems
      cases hitem
    · rename_i parent tail hsplit
      split at hitems
      · obtain ⟨found, hresolve, hitems⟩ := Json.ok_of_bind_ok hitems
        cases hitems
        obtain ⟨read, hparse, hfound⟩ := Json.ok_of_bind_ok hresolve
        cases read with
        | none =>
          cases hfound
          cases hitem
        | some p =>
          cases hlookup : Path.lookup context p with
          | none =>
            simp only [Option.bind_some, hlookup] at hfound
            cases hfound
            cases hitem
          | some node =>
            simp only [Option.bind_some, hlookup] at hfound
            cases hfound
            exact ⟨parent, tail, p, node, hsplit, hparse, hlookup, hitem⟩
      · cases hitems
        cases hitem

theorem keysApart_enter? {s : Segment} {v w : Json} (hv : v.KeysApart)
    (h : Path.enter? s v = some w) : w.KeysApart := by
  have hmember : ∀ {key : String} {v : Json}, v.KeysApart → Json.member? key v = some w →
      w.KeysApart := by
    intro key v hv h
    cases v with
    | obj members => exact Json.membersKeysApart_iff.mp hv.2 _ (Json.mem_of_find? h)
    | _ => cases h
  cases s with
  | index text =>
    cases v with
    | arr elements => exact Json.allKeysApart_iff.mp hv w (List.mem_of_head? h)
    | _ => cases h
  | name key =>
    cases v with
    | obj members => exact hmember hv h
    | arr elements =>
      obtain ⟨first, hfirst, h⟩ := Option.bind_eq_some_iff.mp h
      exact hmember (Json.allKeysApart_iff.mp hv first (List.mem_of_head? hfirst)) h
    | _ => cases h

theorem keysApart_descend {segments : List Segment} {v w : Json} (hv : v.KeysApart)
    (h : Path.descend segments v = some w) : w.KeysApart := by
  induction segments generalizing v with
  | nil =>
    cases h
    exact hv
  | cons s rest ih =>
    obtain ⟨next, hnext, hrest⟩ := Option.bind_eq_some_iff.mp h
    exact ih (keysApart_enter? hv hnext) hrest

/-- A schema that a path leads to in the documents of two texts is that of a value without repeated
keys, labels aside. -/
theorem value_of_lookup [Json.Nesting] {input data : Option String} {p : Path} {node : Schema}
    (h : Path.lookup (.ofTexts input data) p = some node) :
    ∃ v : Json, node.unlabelled = ofJson none v ∧ v.KeysApart := by
  unfold Path.lookup at h
  cases hroot : (Context.ofTexts input data).root p.root with
  | none =>
    rw [hroot, Path.follow_none] at h
    cases h
  | some root =>
    obtain ⟨text, hparse⟩ := Context.parse?_of_root hroot
    obtain ⟨v, hload, hv⟩ := Schema.value_of_parse? hparse
    obtain ⟨hdecode, -⟩ := Json.load?_eq_some_iff.mp hload
    rw [hroot] at h
    obtain ⟨w, hw, hnode⟩ := Path.follow_value hv h
    exact ⟨w, hnode, keysApart_descend (Json.keysApart_of_decode? hdecode) hw⟩

/-- Every member that completion offers stands for a member of the documents, with its type and
example. Written after the path typed so far its label reads as the path to that member exactly if
its key is a name and no blank stands before the last dot, and then resolves to it. -/
theorem offered_members_resolve [Json.Nesting] {input data : Option String} {typed : List Char}
    {items : List Item} {item : Item}
    (hitems : pathItems (.ofTexts input data) typed = .ok items) (hitem : item ∈ items)
    (hproperty : item.category = .property) :
    ∃ parent tail p key node, splitLastDot? (Text.strip typed) = some (parent, tail) ∧
      Path.parse parent = .ok (some p) ∧
      item.label = (if item.inArray then arrayMarker else "") ++ key ∧
      Path.lookup (.ofTexts input data) (memberPath p item.inArray key) = some node ∧
      item.detail = some node.describe ∧ item.info = node.exampleText ∧
      (Path.parse (extendedText parent item) = .ok (some (memberPath p item.inArray key)) ↔
        isName key.toList = true ∧ ¬ EndsBlank parent) ∧
      (isName key.toList = true → ¬ EndsBlank parent →
        Path.resolve (.ofTexts input data) (extendedText parent item) = .ok (some node)) := by
  obtain ⟨parent, tail, p, below, hsplit, hparse, hlookup, hmem⟩ :=
    pathItems_property hitems hitem hproperty
  obtain ⟨v, hv, hkeys⟩ := value_of_lookup hlookup
  obtain ⟨inArray, key, member, rfl, hmember⟩ := mem_itemsBelow hv hkeys hmem
  have hpath : Path.lookup (.ofTexts input data) (memberPath p inArray key) = some member := by
    rw [← hmember, ← hlookup]
    exact List.foldl_append
  have hreads := parse_memberText_iff hparse inArray key
  rw [← extendedText_memberItem parent inArray key member] at hreads
  refine ⟨parent, tail, p, key, member, hsplit, hparse, rfl, hpath, rfl, rfl, hreads, ?_⟩
  intro hname hparent
  rw [Path.resolve_of_parse (hreads.mpr ⟨hname, hparent⟩)]
  exact congrArg _ hpath

section

open scoped Json.UsualNesting

def guestsDocument : String := "\x7b\"users\": [\x7b\"name\": \"bob\"\x7d]\x7d"

/-- What is offered below an array leads through it to the member of its element. -/
theorem offered_members_resolve_in_array :
    ∃ item, pathItems (.ofTexts (some guestsDocument) none) "input.users.".toList = .ok [item] ∧
      item.category = .property ∧ item.inArray = true ∧
      ∃ p key node, item.label = arrayMarker ++ key ∧
        Path.lookup (.ofTexts (some guestsDocument) none) (memberPath p true key) = some node ∧
        node.describe = "string" ∧ node.exampleText = some "\"bob\"" := by
  have hitems : pathItems (.ofTexts (some guestsDocument) none) "input.users.".toList =
      .ok [⟨"[_].name", .property, some "string", some "\"bob\"", true⟩] := by decide +kernel
  obtain ⟨_, _, p, key, node, -, -, hlabel, hlookup, hdetail, hinfo, -⟩ :=
    offered_members_resolve hitems List.mem_cons_self rfl
  exact ⟨_, hitems, rfl, rfl, p, key, node, hlabel, hlookup, (Option.some.inj hdetail).symm,
    hinfo.symm⟩

def blankKeyDocument : String := "\x7b\"a b\": 1\x7d"

/-- A key that is no name is offered as it stands, and after a dot it reads as no path. -/
theorem key_with_blank_unreadable :
    ∃ item, pathItems (.ofTexts (some blankKeyDocument) none) "input.".toList = .ok [item] ∧
      item.category = .property ∧ item.inArray = false ∧
      splitLastDot? (Text.strip "input.".toList) = some ("input".toList, []) ∧
      Path.resolve (.ofTexts (some blankKeyDocument) none)
        ("input".toList ++ '.' :: item.label.toList) = .ok none := by
  have hitems : pathItems (.ofTexts (some blankKeyDocument) none) "input.".toList =
      .ok [⟨"a b", .property, some "number", some "1", false⟩] := by decide +kernel
  refine ⟨_, hitems, rfl, rfl, by decide +kernel, ?_⟩
  simp only [Path.resolve]
  rfl

end

end PolicyEditor.Completion
