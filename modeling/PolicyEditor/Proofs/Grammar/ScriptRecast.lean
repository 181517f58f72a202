import PolicyEditor.Proofs.Grammar.ExpressionRecast
import PolicyEditor.Proofs.Grammar.ScriptExtension

/-!
Declarations on recast items: all of them are the recast declarations of the items.
-/

namespace PolicyEditor.Grammar

namespace Rules

open Recast

variable {φ : Recast} {r : Rules}

section

variable (h : φ.Respected r)
include h

theorem pathTail_recast (s : Scope) (rounds : Nat) {ts : List Item} (hts : φ.Intact ts) :
    φ.CarriesList (r.pathTail s rounds ts) (r.pathTail (scope s) rounds (ts.map φ.item)) := by
  induction rounds generalizing ts with
  | zero => exact fun _ => ⟨rfl, hts⟩
  | succ rounds ih =>
    cases ts with
    | nil => exact fun _ => ⟨rfl, .nil⟩
    | cons i rest =>
      have hstay : φ.CarriesList ([], i :: rest) ([], φ.item i :: rest.map φ.item) :=
        fun _ => ⟨rfl, hts⟩
      simp only [pathTail, List.map_cons, hts.kind_item, newline_item]
      split
      · exact hstay
      split
      case isTrue hdot =>
        -- A dot is taken together with the name behind it, or not at all.
        cases rest with
        | nil => exact hstay
        | cons j next =>
          have hname : (φ.item j).kind.isName = j.kind.isName ∧
              (j.kind.isName = true → φ.Intact next) := by
            cases hts with
            | cons _ _ hrest => exact ⟨by rw [hrest.kind_item], hrest.tail_of_isName⟩
            | member _ _ _ hj hj' _ hnext => exact ⟨hj'.trans hj.symm, fun _ => hnext⟩
          simp only [List.map_cons, hname.1]
          split
          case isTrue hj =>
            intro hspares
            have hothers := (Spares.cons_iff.mp (Spares.cons_iff.mp hspares).2).2
            obtain ⟨hmore, hafter⟩ := ih (hname.2 hj) hothers
            simp only [hmore, parsedList, leaf_item hts.kind_item]
            exact ⟨rfl, hafter⟩
          case isFalse => exact hstay
      case isFalse hdot =>
        split
        · intro hspares
          obtain ⟨hparts, hothers⟩ := Spares.append_iff.mp hspares
          obtain ⟨hparts', hafterParts⟩ := index_recast h.expr s hts.kind_item (hts.tail hdot) hparts
          obtain ⟨hmore, hafter⟩ := ih hafterParts hothers
          simp only [hparts', parsedList, hmore, List.map_append]
          exact ⟨trivial, hafter⟩
        · exact hstay

theorem declaredPath_recast (s : Scope) :
    φ.Casts (r.declaredPath s) (r.declaredPath (scope s)) := by
  intro ts hts
  cases ts with
  | nil => exact carries_missing s .nil
  | cons i rest =>
    simp only [declaredPath, List.map_cons, hts.kind_item, newline_item]
    split
    · exact carries_missing s hts
    case isFalse hi =>
      rw [Bool.or_eq_true, Bool.not_eq_true', not_or, Bool.not_eq_false] at hi
      intro hspares
      have hparts := (Spares.cons_iff.mp hspares.children).2
      obtain ⟨htail, hafter⟩ := pathTail_recast h s rest.length (hts.tail_of_isName hi.2) hparts
      simp only [List.length_map, htail, parsedList, parsed, here_scope, tree_enclose,
        List.map_cons]
      exact ⟨rfl, hafter⟩

theorem package_recast (s : Scope) {word : Item} (hword : (φ.item word).kind = word.kind)
    {rest : List Item} (hrest : φ.Intact rest) :
    φ.Carries (r.package s word rest) (r.package (scope s) (φ.item word) (rest.map φ.item)) := by
  intro hspares
  have hpath := (Spares.cons_iff.mp hspares.children).2
  obtain ⟨hpath', hafter⟩ := declaredPath_recast h s rest hrest hpath
  simp only [package, hpath', parsed, here_scope, tree_enclose, List.map_cons, leaf_item hword]
  exact ⟨rfl, hafter⟩

omit h in
theorem alias?_recast (s : Scope) {ts : List Item} (hts : φ.Intact ts) :
    φ.CarriesList (alias? s ts) (alias? (scope s) (ts.map φ.item)) := by
  cases ts with
  | nil => exact fun _ => ⟨rfl, .nil⟩
  | cons i rest =>
    simp only [alias?, List.map_cons, hts.kind_item, newline_item]
    split
    case isTrue hi =>
      rw [Bool.and_eq_true, decide_eq_true_eq] at hi
      obtain ⟨hname, hafter⟩ :=
        expect_recast .identifier s (hts.tail_of_eq hi.1 (by decide)) (by decide)
      simp only [hname, parsed, leaf_item hts.kind_item]
      exact fun _ => ⟨rfl, hafter⟩
    case isFalse => exact fun _ => ⟨rfl, hts⟩

theorem importOf_recast (s : Scope) {word : Item} (hword : (φ.item word).kind = word.kind)
    {rest : List Item} (hrest : φ.Intact rest) :
    φ.Carries (r.importOf s word rest) (r.importOf (scope s) (φ.item word) (rest.map φ.item)) := by
  intro hspares
  simp only [importOf] at hspares
  obtain ⟨hpath, hname⟩ := Spares.cons_iff.mp (Spares.cons_iff.mp hspares.children).2
  obtain ⟨hpath', hafterPath⟩ := declaredPath_recast h s rest hrest hpath
  obtain ⟨hname', hafter⟩ := alias?_recast s hafterPath hname
  simp only [importOf, hpath', hname', parsed, parsedList, here_scope, tree_enclose, List.map_cons,
    leaf_item hword]
  exact ⟨trivial, hafter⟩

theorem ifBody_recast (s : Scope) : φ.Casts (r.ifBody s) (r.ifBody (scope s)) := by
  intro ts hts
  have hstatement : φ.Carries
      (.enclose .body (s.here (r.statement s.statement ts).2) [(r.statement s.statement ts).1],
        (r.statement s.statement ts).2)
      (.enclose .body ((scope s).here (r.statement (scope s.statement) (ts.map φ.item)).2)
          [(r.statement (scope s.statement) (ts.map φ.item)).1],
        (r.statement (scope s.statement) (ts.map φ.item)).2) := by
    intro hspares
    obtain ⟨hnode, hafter⟩ := statement_recast h s.statement ts hts hspares.children
    simp only [hnode, parsed, here_scope, tree_enclose, List.map_cons]
    exact ⟨rfl, hafter⟩
  cases ts with
  | nil => exact hstatement
  | cons i rest =>
    simp only [ifBody, List.map_cons, hts.kind_item]
    split
    case isTrue hi => exact bracedBody_recast h s hts.kind_item (hts.tail_of_eq hi (by decide))
    case isFalse => exact hstatement

theorem body?_recast (s : Scope) {ts : List Item} (hts : φ.Intact ts) :
    φ.CarriesList (r.body? s ts) (r.body? (scope s) (ts.map φ.item)) := by
  cases ts with
  | nil => exact fun _ => ⟨rfl, .nil⟩
  | cons i rest =>
    simp only [body?, List.map_cons, hts.kind_item]
    split
    case isTrue hi =>
      intro hspares
      have hbody := (Spares.cons_iff.mp hspares).2
      obtain ⟨hbody', hafter⟩ := ifBody_recast h s rest (hts.tail_of_eq hi (by decide)) hbody
      simp only [hbody', parsed, leaf_item hts.kind_item]
      exact ⟨rfl, hafter⟩
    split
    case isTrue hi =>
      intro hspares
      obtain ⟨hbody, hafter⟩ :=
        bracedBody_recast h s hts.kind_item (hts.tail_of_eq hi (by decide)) hspares
      simp only [hbody, parsed]
      exact ⟨rfl, hafter⟩
    · exact fun _ => ⟨rfl, hts⟩

theorem bodyOnLine?_recast (s : Scope) {ts : List Item} (hts : φ.Intact ts) :
    φ.CarriesList (r.bodyOnLine? s ts) (r.bodyOnLine? (scope s) (ts.map φ.item)) := by
  cases ts with
  | nil => exact fun _ => ⟨rfl, .nil⟩
  | cons i rest =>
    simp only [bodyOnLine?, List.map_cons, newline_item]
    split
    · exact fun _ => ⟨rfl, hts⟩
    · exact body?_recast h s hts

theorem parameters_recast (s : Scope) {ts : List Item} (hts : φ.Intact ts) :
    φ.CarriesList (parameters r s ts) (parameters r (scope s) (ts.map φ.item)) := by
  cases ts with
  | nil => exact fun _ => ⟨rfl, .nil⟩
  | cons i rest =>
    simp only [parameters, List.map_cons, hts.kind_item, newline_item]
    split
    case isTrue hi =>
      rw [Bool.and_eq_true, decide_eq_true_eq] at hi
      intro hspares
      obtain ⟨hargs, hafter⟩ := arguments_recast h.expr s hts.kind_item
        (hts.tail_of_eq hi.1 (by decide)) hspares
      simp only [hargs, parsed]
      exact ⟨rfl, hafter⟩
    case isFalse => exact fun _ => ⟨rfl, hts⟩

theorem head_recast (s : Scope) : φ.Casts (r.head s) (r.head (scope s)) := by
  intro ts hts hspares
  simp only [head_eq] at hspares ⊢
  obtain ⟨hpath, hargs⟩ := Spares.append_iff.mp hspares.children
  obtain ⟨hname, hafterName⟩ := expect_recast .identifier s hts (by decide)
  obtain ⟨hpath', hafterPath⟩ := pathTail_recast h s (expect .identifier s ts).2.length hafterName
    (Spares.cons_iff.mp hpath).2
  obtain ⟨hargs', hafter⟩ := parameters_recast h s hafterPath hargs
  simp only [hname, parsed, List.length_map, hpath', parsedList, hargs', here_scope, tree_enclose,
    List.map_cons, List.map_append]
  exact ⟨trivial, hafter⟩

omit h in
theorem tail_of_givesValue {i : Item} {rest : List Item} (hts : φ.Intact (i :: rest))
    (hi : givesValue i.kind = true) : φ.Intact rest := by
  refine hts.tail fun hdot => ?_
  rw [hdot] at hi
  cases hi

theorem tail_recast (s : Scope) {ts : List Item} (hts : φ.Intact ts) :
    φ.CarriesList (r.tail s ts) (r.tail (scope s) (ts.map φ.item)) := by
  cases ts with
  | nil => exact fun _ => ⟨rfl, .nil⟩
  | cons i rest =>
    simp only [tail, List.map_cons, hts.kind_item, newline_item]
    split
    · exact fun _ => ⟨rfl, hts⟩
    split
    case isTrue hi =>
      rw [Bool.or_eq_true, decide_eq_true_eq] at hi
      have hrest : φ.Intact rest :=
        hi.elim (hts.tail_of_eq · (by decide)) (tail_of_givesValue hts)
      intro hspares
      obtain ⟨hvalue, hbody⟩ := Spares.cons_iff.mp (Spares.cons_iff.mp hspares).2
      obtain ⟨hvalue', hafterValue⟩ := h.expr s setOpLevel rest hrest hvalue
      obtain ⟨hbody', hafter⟩ := bodyOnLine?_recast h s hafterValue hbody
      simp only [hvalue', parsed, hbody', parsedList, leaf_item hts.kind_item]
      exact ⟨rfl, hafter⟩
    case isFalse => exact body?_recast h s hts

theorem value?_recast (s : Scope) {ts : List Item} (hts : φ.Intact ts) :
    φ.CarriesList (r.value? s ts) (r.value? (scope s) (ts.map φ.item)) := by
  cases ts with
  | nil => exact fun _ => ⟨rfl, .nil⟩
  | cons i rest =>
    simp only [value?, List.map_cons, hts.kind_item]
    split
    case isTrue hi =>
      intro hspares
      have hvalue := (Spares.cons_iff.mp hspares).2
      obtain ⟨hvalue', hafter⟩ := h.expr s setOpLevel rest (tail_of_givesValue hts hi) hvalue
      simp only [hvalue', parsed, leaf_item hts.kind_item]
      exact ⟨rfl, hafter⟩
    case isFalse => exact fun _ => ⟨rfl, hts⟩

theorem alternative_recast (s : Scope) {word : Item} (hword : (φ.item word).kind = word.kind)
    {rest : List Item} (hrest : φ.Intact rest) :
    φ.Carries (r.alternative s word rest)
      (r.alternative (scope s) (φ.item word) (rest.map φ.item)) := by
  intro hspares
  simp only [alternative] at hspares
  obtain ⟨hparts, hbody⟩ := Spares.append_iff.mp hspares.children
  obtain ⟨hvalue, hafterValue⟩ := value?_recast h s hrest (Spares.cons_iff.mp hparts).2
  obtain ⟨hbody', hafter⟩ := body?_recast h s hafterValue hbody
  simp only [alternative, hvalue, hbody', parsed, parsedList, here_scope, tree_enclose,
    List.map_cons, List.map_append, leaf_item hword]
  exact ⟨trivial, hafter⟩

theorem alternatives_recast (s : Scope) (rounds : Nat) {ts : List Item} (hts : φ.Intact ts) :
    φ.CarriesList (r.alternatives s rounds ts)
      (r.alternatives (scope s) rounds (ts.map φ.item)) := by
  induction rounds generalizing ts with
  | zero => exact fun _ => ⟨rfl, hts⟩
  | succ rounds ih =>
    cases ts with
    | nil => exact fun _ => ⟨rfl, .nil⟩
    | cons i rest =>
      simp only [alternatives, List.map_cons, hts.kind_item]
      split
      case isTrue hi =>
        intro hspares
        obtain ⟨hnode, hothers⟩ := Spares.cons_iff.mp hspares
        obtain ⟨hnode', hafterNode⟩ := alternative_recast h s hts.kind_item
          (hts.tail_of_eq hi (by decide)) hnode
        obtain ⟨hmore, hafter⟩ := ih hafterNode hothers
        simp only [hnode', parsed, hmore, parsedList]
        exact ⟨rfl, hafter⟩
      case isFalse => exact fun _ => ⟨rfl, hts⟩

theorem ruleAfter_recast (s : Scope) (before : List Tree) {ts : List Item} (hts : φ.Intact ts) :
    φ.Carries (r.ruleAfter s before ts)
      (r.ruleAfter (scope s) (before.map φ.tree) (ts.map φ.item)) := by
  intro hspares
  simp only [ruleAfter] at hspares
  obtain ⟨hfront, hothers⟩ := Spares.append_iff.mp hspares.children
  obtain ⟨hhead, htail⟩ := Spares.cons_iff.mp (Spares.append_iff.mp hfront).2
  obtain ⟨hhead', hafterHead⟩ := head_recast h s ts hts hhead
  obtain ⟨htail', hafterTail⟩ := tail_recast h s hafterHead htail
  obtain ⟨hothers', hafter⟩ := alternatives_recast h s _ hafterTail hothers
  simp only [ruleAfter, hhead', parsed, htail', parsedList, List.length_map, hothers', here_scope,
    tree_enclose, List.map_cons, List.map_append]
  exact ⟨trivial, hafter⟩

theorem declaration_recast (s : Scope) {i : Item} {rest : List Item} (hts : φ.Intact (i :: rest)) :
    φ.Carries (r.declaration s i rest)
      (r.declaration (scope s) (φ.item i) (rest.map φ.item)) := by
  rw [declaration, declaration, hts.kind_item]
  split
  case h_1 hi => exact package_recast h s hts.kind_item (hts.tail_of_eq hi (by decide))
  case h_2 hi => exact importOf_recast h s hts.kind_item (hts.tail_of_eq hi (by decide))
  case h_3 hi =>
    have hrule := ruleAfter_recast h s [i.leaf] (hts.tail_of_eq hi (by decide))
    rwa [List.map_cons, ← leaf_item hts.kind_item] at hrule
  case h_4 => exact ruleAfter_recast h s [] hts
  case h_5 => exact restOfLine_recast s [] hts

theorem declarations_recast (s : Scope) (rounds : Nat) {ts : List Item} (hts : φ.Intact ts)
    (hspares : φ.Spares (r.declarations s rounds ts)) :
    r.declarations (scope s) rounds (ts.map φ.item) =
      (r.declarations s rounds ts).map φ.tree := by
  induction rounds generalizing ts with
  | zero => rfl
  | succ rounds ih =>
    cases ts with
    | nil => rfl
    | cons i rest =>
      have hnode := declaration_recast h s hts
      rcases hp : r.declaration s i rest with ⟨node, after⟩
      rw [hp] at hnode
      simp only [declarations, List.map_cons, hp] at hspares ⊢
      cases after with
      | nil =>
        obtain ⟨hnode', -⟩ := hnode hspares
        rw [hnode']
        rfl
      | cons j next =>
        simp only at hspares ⊢
        by_cases hj : j.newline = true
        · simp only [if_pos hj] at hspares ⊢
          obtain ⟨hfirst, hothers⟩ := Spares.cons_iff.mp hspares
          obtain ⟨hnode', hafter⟩ := hnode hfirst
          have hmore := ih hafter hothers
          rw [List.map_cons] at hmore
          rw [hnode']
          simp only [parsed, List.map_cons, newline_item, if_pos hj, hmore]
        · simp only [if_neg hj] at hspares ⊢
          obtain ⟨hfirst, hothers⟩ := Spares.cons_iff.mp hspares
          obtain ⟨hwrong, hlater⟩ := Spares.cons_iff.mp hothers
          obtain ⟨hnode', hafter⟩ := hnode hfirst
          obtain ⟨hwrong', hafterWrong⟩ := restOfLine_recast s [] hafter hwrong
          have hmore := ih hafterWrong hlater
          rw [hnode']
          simp only [parsed, List.map_cons, newline_item, if_neg hj, hwrong', hmore]

end

end Rules

end PolicyEditor.Grammar
