import Mathlib.Data.List.Chain
import Mathlib.Data.List.Nodup
import PolicyEditor.Proofs.Grammar.Leaves
import PolicyEditor.Proofs.Grammar.ScriptShape
import PolicyEditor.Proofs.Tree.Heading

/-!
Headings of declarations and line breaks. Every rule leaves the last of its items with the line
breaks before them, so what the rules for packages, imports and heads see of line breaks is what
stands in the text. They look for one before each part of a path, but not between a dot and the name
after it, nor between `as` and the name after it; there, and nowhere else outside brackets, a
heading goes on over the end of its line.
-/

namespace PolicyEditor.Grammar

open PolicyEditor.Tree (Every EveryOf outside outsideAll bare bareList bareList_cons tokens)

/-! ### What rules leave -/

def Item.mark (i : Item) : Token × Bool :=
  (i.token, i.newline)

/-- No node is a heading, and the last of the items remain, with the line breaks before them. -/
structure Passes (eof : Nat) (ts : List Item) (cs : List Tree) (rest : List Item) : Prop where
  marks : rest.map Item.mark <:+ ts.map Item.mark
  inner : EveryOf (fun t => t.kind.isHeading = false) cs

theorem settle_marks (ts : List Item) : (settle ts).map Item.mark = ts.map Item.mark := by
  cases ts <;> rfl

instance : Composes Passes where
  nil _ := ⟨List.suffix_rfl, trivial⟩
  leaf _ h := ⟨h.marks.trans (List.suffix_cons _ _), trivial, h.inner⟩
  nameLeaf _ h := ⟨h.marks.trans (List.suffix_cons _ _), trivial, h.inner⟩
  append h h' := ⟨h'.marks.trans h.marks, h.inner.append h'.inner⟩
  enclose _ hk h := ⟨h.marks, ⟨hk, h.inner⟩, trivial⟩
  settled {_ ts _ _} h := ⟨settle_marks ts ▸ h.marks, h.inner⟩

/-! ### Line breaks in headings -/

/-- Where a heading may go on after a line break: at the name after a dot, and in an import at the
name after `as`. -/
inductive Crosses : NodeKind → Token → Token → Prop where
  | member {k : NodeKind} {dot name : Token} : dot.kind = .mark .dot → name.kind.isName = true →
      Crosses k dot name
  | aliased {word name : Token} : word.kind = .keyword .asKw → name.kind = .identifier →
      Crosses .importStatement word name

variable {broken : Token → Prop} {k : NodeKind}

/-- One token of a heading after another, given those that begin a line. -/
def Next (broken : Token → Prop) (k : NodeKind) (u v : Token) : Prop :=
  broken v → Crosses k u v

/-- A node that is no heading, or one that goes on over the end of a line in those places only. -/
def KeepsLine (broken : Token → Prop) (t : Tree) : Prop :=
  t.kind.isHeading = true → t.outside.IsChain (Next broken t.kind)

theorem keepsLine_of_inner {t : Tree} (h : t.kind.isHeading = false) : KeepsLine broken t := by
  intro hheading
  rw [h] at hheading
  cases hheading

/-- Items without a line break before them begin no line. -/
def Unbroken (broken : Token → Prop) (ts : List Item) : Prop :=
  ∀ i ∈ ts, i.newline = false → ¬ broken i.token

theorem Unbroken.rest {ts rest : List Item} (h : Unbroken broken ts)
    (hmarks : rest.map Item.mark <:+ ts.map Item.mark) : Unbroken broken rest := by
  intro i hi hline
  obtain ⟨j, hj, hmark⟩ := List.mem_map.mp (hmarks.subset (List.mem_map_of_mem hi))
  obtain ⟨htoken, hnewline⟩ := Prod.mk.inj hmark
  exact htoken ▸ h j hj (hnewline.trans hline)

theorem Unbroken.tail {i : Item} {ts : List Item} (h : Unbroken broken (i :: ts)) :
    Unbroken broken ts :=
  fun j hj => h j (List.mem_cons_of_mem _ hj)

/-- Tokens that go on from whatever token stands before them. -/
def Continues (broken : Token → Prop) (k : NodeKind) (l : List Token) : Prop :=
  ∀ u, (u :: l).IsChain (Next broken k)

namespace Continues

variable {l l' : List Token}

theorem nil : Continues broken k [] :=
  fun u => .singleton u

theorem cons {v : Token} (hv : ¬ broken v) (h : (v :: l).IsChain (Next broken k)) :
    Continues broken k (v :: l) :=
  fun _ => .cons_cons (fun hbroken => absurd hbroken hv) h

theorem append (h : Continues broken k l) (h' : Continues broken k l') :
    Continues broken k (l ++ l') := by
  intro u
  have hfront := h u
  clear h
  -- On the first list: the second one goes on from its last token, or from `u`.
  induction l generalizing u with
  | nil => exact h' u
  | cons v l ih =>
    obtain ⟨hnext, hrest⟩ := List.isChain_cons_cons.mp hfront
    exact .cons_cons hnext (ih v hrest)

theorem isChain (h : Continues broken k l) : l.IsChain (Next broken k) := by
  cases l with
  | nil => exact .nil
  | cons v l => exact (List.isChain_cons_cons.mp (h v)).2

end Continues

/-! ### Parts of headings -/

theorem Item.leaf_shown {i : Item} (h : i.kind.isTrivia = false) : i.leaf.isTrivia = false :=
  isTrivia_ofToken h

theorem outside_leaf {i : Item} {kind : Token.Kind} (hi : i.kind = kind)
    (hshown : kind.isTrivia = false) (hkind : kind ≠ .mark .lbracket) (cs : List Tree) :
    outsideAll 0 (bareList (i.leaf :: cs)) = i.token :: outsideAll 0 (bareList cs) := by
  subst hi
  rw [bareList_cons (Item.leaf_shown hshown)]
  exact Tree.outsideAll_leaf hkind _

theorem outside_name {i : Item} (hi : i.kind.isName = true) (cs : List Tree) :
    outsideAll 0 (bareList (i.nameLeaf :: cs)) = i.token :: outsideAll 0 (bareList cs) := by
  have hbracket : i.kind ≠ .mark .lbracket := by
    intro heq
    rw [heq] at hi
    cases hi
  rw [bareList_cons rfl]
  exact Tree.outsideAll_leaf hbracket _

theorem outside_index {i : Item} (hi : i.kind = .mark .lbracket) {value closer : Tree}
    (hvalue : value.isTrivia = false) (hcloser : closer.isTrivia = false) (cs : List Tree) :
    outsideAll 0 (bareList (i.leaf :: value :: closer :: cs)) =
      i.token :: outsideAll 0 (bareList cs) := by
  rw [bareList_cons (Item.leaf_shown (by rw [hi]; rfl)), bareList_cons hvalue,
    bareList_cons hcloser]
  exact Tree.outsideAll_index hi _ _ _

namespace Rules

variable {r : Rules}

theorem pathTail_continues (hpasses : r.Composed Passes) (hshapes : r.Shapes) (s : Scope)
    (rounds : Nat) {ts : List Item} (hts : Unbroken broken ts) {cs : List Tree}
    (hcs : Continues broken k (outsideAll 0 (bareList cs))) :
    Continues broken k (outsideAll 0 (bareList ((r.pathTail s rounds ts).1 ++ cs))) := by
  induction rounds generalizing ts with
  | zero => exact hcs
  | succ rounds ih =>
    cases ts with
    | nil => exact hcs
    | cons i rest =>
      simp only [pathTail]
      split
      · exact hcs
      case isFalse hline =>
        have hi : ¬ broken i.token := hts i List.mem_cons_self (Bool.not_eq_true _ ▸ hline)
        split
        case isTrue hdot =>
          cases rest with
          | nil => exact hcs
          | cons j next =>
            simp only
            split
            case isTrue hname =>
              have hmore := ih hts.tail.tail
              rw [List.cons_append, List.cons_append, outside_leaf hdot rfl (by decide),
                outside_name hname]
              -- No look for a line break is taken between the dot and the name.
              exact .cons hi (.cons_cons (fun _ => .member hdot hname) (hmore j.token))
            case isFalse => exact hcs
        split
        case isTrue hopener =>
          have hindex := index_composes hpasses.expr s i rest
          have hmore := ih (hts.rest hindex.marks)
          have hvalue := (hshapes.expr s.bracketed assignLevel rest).shown
          have hcloser : Yields false _ (expect (.mark .rbracket) s
              (r.expr s.bracketed assignLevel rest).2).1 := expect_yields rfl s _
          have houtside := outside_index hopener hvalue hcloser.shown
            ((r.pathTail s rounds (index r.expr s i rest).2).1 ++ cs)
          rw [List.append_assoc]
          refine houtside.symm ▸ ?_
          exact .cons hi (hmore i.token)
        case isFalse => exact hcs

theorem declaredPath_continues (hpasses : r.Composed Passes) (hshapes : r.Shapes) (s : Scope)
    {ts : List Item} (hts : Unbroken broken ts) {cs : List Tree}
    (hcs : Continues broken k (outsideAll 0 (bareList cs))) :
    Continues broken k (outsideAll 0 (bareList ((r.declaredPath s ts).1 :: cs))) := by
  cases ts with
  | nil => exact hcs
  | cons i rest =>
    rw [declaredPath]
    split
    · exact hcs
    case isFalse hi =>
      simp only [Bool.or_eq_true, Bool.not_eq_true', not_or, Bool.not_eq_true,
        Bool.not_eq_false] at hi
      have htail : Continues broken k
          (outsideAll 0 (bareList ((r.pathTail s rest.length rest).1 ++ []))) :=
        pathTail_continues hpasses hshapes s rest.length hts.tail .nil
      rw [List.append_nil] at htail
      -- The path is a node of its own, but its heading is part of the declaration's.
      have hpath : Continues broken k
          (outsideAll 0 (bareList (i.nameLeaf :: (r.pathTail s rest.length rest).1))) := by
        rw [outside_name hi.2]
        exact .cons (hts i List.mem_cons_self hi.1) (htail i.token)
      exact hpath.append hcs

theorem alias?_continues (s : Scope) {ts : List Item} (hts : Unbroken broken ts) :
    Continues broken .importStatement (outsideAll 0 (bareList (alias? s ts).1)) := by
  cases ts with
  | nil => exact .nil
  | cons i rest =>
    rw [alias?]
    split
    case isFalse => exact .nil
    case isTrue hi =>
      simp only [Bool.and_eq_true, decide_eq_true_eq, Bool.not_eq_true'] at hi
      rw [outside_leaf hi.1 rfl (by decide)]
      refine .cons (hts i List.mem_cons_self hi.2) ?_
      -- No look for a line break is taken between `as` and the name.
      cases rest with
      | nil => exact .singleton _
      | cons j next =>
        rw [expect]
        split
        case isTrue hj =>
          rw [outside_leaf hj rfl (by decide)]
          exact .cons_cons (fun _ => .aliased hi.1 hj) (.singleton _)
        case isFalse => exact .singleton _

theorem parameters_continues (s : Scope) {ts : List Item} (hts : Unbroken broken ts) :
    Continues broken k (outsideAll 0 (bareList (parameters r s ts).1)) := by
  cases ts with
  | nil => exact .nil
  | cons i rest =>
    rw [parameters]
    split
    case isFalse => exact .nil
    case isTrue hi =>
      simp only [Bool.and_eq_true, decide_eq_true_eq, Bool.not_eq_true'] at hi
      -- Of the arguments only their opening bracket counts.
      have hopener : i.leaf.isTrivia = false := Item.leaf_shown (by rw [hi.1]; rfl)
      have houtside : outsideAll 0 (bareList [(arguments r.expr s i rest).1]) = [i.token] := by
        show (tokens (bareList (i.leaf :: _))).take 1 ++ [] = _
        rw [bareList_cons hopener]
        rfl
      simp only [houtside]
      exact .cons (hts i List.mem_cons_self hi.2) (.singleton _)

/-! ### Declarations -/

/-- The node keeps its headings on their lines, and the last of the items remain. -/
structure Keeps (broken : Token → Prop) (ts : List Item) (p : Parsed) : Prop where
  marks : p.2.map Item.mark <:+ ts.map Item.mark
  every : Every (KeepsLine broken) p.1

theorem everyOf_of_passes {eof : Nat} {ts rest : List Item} {cs : List Tree}
    (h : Passes eof ts cs rest) : EveryOf (KeepsLine broken) cs :=
  h.inner.mono fun _ => keepsLine_of_inner

theorem package_keeps (hpasses : r.Composed Passes) (hshapes : r.Shapes) (s : Scope) {word : Item}
    (hword : word.kind = .keyword .packageKw) {rest : List Item} (hrest : Unbroken broken rest) :
    Keeps broken rest (r.package s word rest) := by
  have hpath := declaredPath_composes hpasses s rest
  have hline : Continues broken .packageDeclaration
      (outsideAll 0 (bareList [(r.declaredPath s rest).1])) :=
    declaredPath_continues hpasses hshapes s hrest .nil
  refine ⟨hpath.marks, .enclose (fun _ => ?_) ⟨trivial, everyOf_of_passes hpath⟩⟩
  show (outsideAll 0 (bareList [word.leaf, (r.declaredPath s rest).1])).IsChain _
  rw [outside_leaf hword rfl (by decide)]
  exact hline word.token

theorem importOf_keeps (hpasses : r.Composed Passes) (hshapes : r.Shapes) (s : Scope) {word : Item}
    (hword : word.kind = .keyword .importKw) {rest : List Item} (hrest : Unbroken broken rest) :
    Keeps broken rest (r.importOf s word rest) := by
  have hpath := declaredPath_composes hpasses s rest
  have hname := alias?_composes (C := Passes) s (r.declaredPath s rest).2
  have hline := declaredPath_continues hpasses hshapes s hrest
    (alias?_continues s (hrest.rest hpath.marks))
  refine ⟨hname.marks.trans hpath.marks, .enclose (fun _ => ?_)
    ⟨trivial, (everyOf_of_passes hpath).1, everyOf_of_passes hname⟩⟩
  show (outsideAll 0 (bareList (word.leaf :: (r.declaredPath s rest).1 ::
    (alias? s (r.declaredPath s rest).2).1))).IsChain _
  rw [outside_leaf hword rfl (by decide)]
  exact hline word.token

/-- The name of a rule, and what goes on from it. -/
theorem name_isChain (s : Scope) (ts : List Item) {cs : List Tree}
    (hcs : Continues broken k (outsideAll 0 (bareList cs))) :
    (outsideAll 0 (bareList ((expect .identifier s ts).1 :: cs))).IsChain (Next broken k) := by
  cases ts with
  | nil => exact hcs.isChain
  | cons i rest =>
    rw [expect]
    split
    case isTrue hi =>
      rw [outside_leaf hi rfl (by decide)]
      exact hcs i.token
    case isFalse => exact hcs.isChain

theorem head_keeps (hpasses : r.Composed Passes) (hshapes : r.Shapes) (s : Scope) {ts : List Item}
    (hts : Unbroken broken ts) : Keeps broken ts (r.head s ts) := by
  have hname := expect_composes (C := Passes) .identifier s ts
  have hpath := pathTail_composes hpasses s (expect .identifier s ts).2.length
    (expect .identifier s ts).2
  have hargs := parameters_compose hpasses s
    (r.pathTail s (expect .identifier s ts).2.length (expect .identifier s ts).2).2
  have hafterName := hts.rest hname.marks
  have hparameters := parameters_continues (k := .ruleHead) (r := r) s
    (hafterName.rest hpath.marks)
  have hline := name_isChain s ts
    (pathTail_continues hpasses hshapes s (expect .identifier s ts).2.length hafterName hparameters)
  rw [head_eq]
  refine ⟨(hargs.marks.trans hpath.marks).trans hname.marks, .enclose (fun _ => hline) ?_⟩
  exact ((everyOf_of_passes hname).append (everyOf_of_passes hpath)).append
    (everyOf_of_passes hargs)

theorem ruleAfter_keeps (hpasses : r.Composed Passes) (hshapes : r.Shapes) (s : Scope)
    {before : List Tree} (hbefore : EveryOf (KeepsLine broken) before) {ts : List Item}
    (hts : Unbroken broken ts) : Keeps broken ts (r.ruleAfter s before ts) := by
  have hhead := head_keeps hpasses hshapes s hts
  have htail := tail_composes hpasses s (r.head s ts).2
  have hothers := alternatives_compose hpasses s (r.tail s (r.head s ts).2).2.length
    (r.tail s (r.head s ts).2).2
  -- Of all that a rule holds only its head is a heading.
  refine ⟨(hothers.marks.trans htail.marks).trans hhead.marks,
    .enclose (keepsLine_of_inner rfl) ?_⟩
  have hrule : EveryOf (KeepsLine broken) ((r.head s ts).1 :: (r.tail s (r.head s ts).2).1) :=
    ⟨hhead.every, everyOf_of_passes htail⟩
  exact (hbefore.append hrule).append (everyOf_of_passes hothers)

theorem restOfLine_keeps (s : Scope) (stops : List Token.Kind) (i : Item) (rest : List Item) :
    Keeps broken (i :: rest) (restOfLine s stops i rest) :=
  have h := restOfLine_composes (C := Passes) s stops i rest
  ⟨h.marks, (everyOf_of_passes h).1⟩

theorem declaration_keeps (hpasses : r.Composed Passes) (hshapes : r.Shapes) (s : Scope) {i : Item}
    {rest : List Item} (hts : Unbroken broken (i :: rest)) :
    Keeps broken (i :: rest) (r.declaration s i rest) := by
  have hlater : ∀ {p : Parsed}, Keeps broken rest p → Keeps broken (i :: rest) p := fun h =>
    ⟨h.marks.trans (List.suffix_cons _ _), h.every⟩
  rw [declaration]
  split
  case h_1 hi => exact hlater (package_keeps hpasses hshapes s hi hts.tail)
  case h_2 hi => exact hlater (importOf_keeps hpasses hshapes s hi hts.tail)
  case h_3 =>
    have hword : EveryOf (KeepsLine broken) [i.leaf] := ⟨trivial, trivial⟩
    exact hlater (ruleAfter_keeps hpasses hshapes s hword hts.tail)
  case h_4 =>
    have hnone : EveryOf (KeepsLine broken) [] := trivial
    exact ruleAfter_keeps hpasses hshapes s hnone hts
  case h_5 => exact restOfLine_keeps s [] i rest

theorem declarations_keep (hpasses : r.Composed Passes) (hshapes : r.Shapes) (s : Scope)
    (rounds : Nat) {ts : List Item} (hts : Unbroken broken ts) :
    EveryOf (KeepsLine broken) (r.declarations s rounds ts) := by
  induction rounds generalizing ts with
  | zero => trivial
  | succ rounds ih =>
    cases ts with
    | nil => trivial
    | cons i rest =>
      have hnode := declaration_keeps hpasses hshapes s hts
      rcases hp : r.declaration s i rest with ⟨node, after⟩
      rw [hp] at hnode
      simp only [declarations, hp]
      have hafter := hts.rest hnode.marks
      cases after with
      | nil => exact ⟨hnode.every, trivial⟩
      | cons j next =>
        simp only
        split
        · exact ⟨hnode.every, ih hafter⟩
        · have hwrong : Keeps broken (j :: next) (restOfLine s [] j next) :=
            restOfLine_keeps s [] j next
          exact ⟨hnode.every, hwrong.every, ih (hafter.rest hwrong.marks)⟩

end Rules

/-! ### Whole texts -/

/-- A line break stands in the blanks and comments before this token. -/
def BreaksBefore (ts : List Token) (t : Token) : Prop :=
  ∃ front gap back, ts = front ++ (gap ++ t :: back) ∧ (∀ u ∈ gap, u.isTrivia = true) ∧
    ∃ u ∈ gap, u.chars.contains '\n' = true

theorem newline_after_gap {t : Token} (ht : t.isTrivia = false) {gap : List Token}
    (htrivia : ∀ u ∈ gap, u.isTrivia = true) (last : Option Token.Kind) (newline : Bool)
    (hline : newline = true ∨ ∃ u ∈ gap, u.chars.contains '\n' = true) (back : List Token) :
    ∃ i ∈ itemsAfter last newline (gap ++ t :: back), i.token = t ∧ i.newline = true := by
  induction gap generalizing newline with
  | nil =>
    rw [List.nil_append, itemsAfter, if_neg (ne_true_of_eq_false ht)]
    refine ⟨_, List.mem_cons_self, rfl, ?_⟩
    simpa using hline
  | cons g gap ih =>
    rw [List.cons_append, itemsAfter, if_pos (htrivia g List.mem_cons_self)]
    refine ih (fun u hu => htrivia u (List.mem_cons_of_mem _ hu)) _ ?_
    rcases hline with hline | ⟨u, hu, hline⟩
    · exact .inl (Bool.or_eq_true_iff.mpr (.inl hline))
    rcases List.mem_cons.mp hu with rfl | hu
    · exact .inl (Bool.or_eq_true_iff.mpr (.inr hline))
    · exact .inr ⟨u, hu, hline⟩

theorem BreaksBefore.newline {ts : List Token} {t : Token} (h : BreaksBefore ts t)
    (ht : t.isTrivia = false) (last : Option Token.Kind) (newline : Bool) :
    ∃ i ∈ itemsAfter last newline ts, i.token = t ∧ i.newline = true := by
  obtain ⟨front, gap, back, rfl, htrivia, hline⟩ := h
  -- On what stands before the gap: whatever is known after it, the gap has the line break.
  induction front generalizing last newline with
  | nil => exact newline_after_gap ht htrivia last newline (.inr hline) back
  | cons f front ih =>
    rw [List.cons_append, itemsAfter]
    split
    · exact ih last _
    · obtain ⟨i, hi, hitem⟩ := ih (some f.kind) false
      exact ⟨i, List.mem_cons_of_mem _ hi, hitem⟩

/-- The items of a text know the line breaks before their tokens. -/
theorem unbroken_items (source : List Char) :
    Unbroken (BreaksBefore (Token.scan source)) (items (Token.scan source)) := by
  intro i hi hline hbreaks
  have htoken : i.token ∈ (Token.scan source).filter fun t => !t.isTrivia :=
    items_tokens (Token.scan source) ▸ List.mem_map_of_mem hi
  have hshown : i.token.isTrivia = false := (Bool.not_eq_true' _).mp (List.mem_filter.mp htoken).2
  -- The tokens of a text are distinct, so the item that knows the line break is this one.
  obtain ⟨j, hj, hsame, hnewline⟩ := hbreaks.newline hshown none true
  obtain rfl : j = i := List.inj_on_of_nodup_map (nodup_items source) hj hi hsame
  rw [hline] at hnewline
  cases hnewline

theorem every_parse_keepsLine (source : String) :
    Every (KeepsLine (BreaksBefore (Token.scan source.toList))) (parse source) := by
  let ts := items (Token.scan source.toList)
  let s : Scope := { lines := true, bars := false, eof := source.toList.length }
  have hnodes := Rules.declarations_keep (Rules.upTo_compose (C := Passes) (ts.length + 1))
    (Rules.upTo_shapes (ts.length + 1)) s ts.length (unbroken_items source.toList)
  have htrivia : ∀ u ∈ (Token.scan source.toList).filter Token.isTrivia, u.isTrivia = true :=
    fun u hu => (List.mem_filter.mp hu).2
  -- The root is no heading; in it stand the dressed declarations and what is left of the trivia.
  exact ⟨keepsLine_of_inner rfl,
    (EveryOf.dressList htrivia hnodes).append (Tree.everyOf_map_ofToken _)⟩

/-- A half-typed declaration ends with its line, but for a dot or an `as` at its end: outside
indexes and arguments, a package, an import or a head of a rule goes on after a line break only at
the name of a member, or at the other name of an import. -/
theorem heading_breaks (source : String) : ∀ q ∈ (parse source).walk [],
    q.1.kind.isHeading = true → q.1.heading.IsChain fun u v =>
      BreaksBefore (Token.scan source.toList) v → Crosses q.1.kind u v := by
  rintro ⟨_ | ⟨k, a, b, cs⟩, above⟩ hq hheading
  · exact .singleton _
  · exact (every_parse_keepsLine source).walk _ hq rfl hheading

/-- After a dot at the end of its line, the name of the next rule is read into the path. -/
theorem package_over_line : ∃ q ∈ (parse "package a.\nb := 1").walk [],
    q.1.kind = .packageDeclaration ∧ q.1.heading = [⟨.keyword .packageKw, "package".toList, 0⟩,
      ⟨.identifier, ['a'], 8⟩, ⟨.mark .dot, ['.'], 9⟩, ⟨.identifier, ['b'], 11⟩] := by
  have hfound : ((parse "package a.\nb := 1").walk []).any (fun q =>
      q.1.kind == .packageDeclaration && q.1.heading == [⟨.keyword .packageKw, "package".toList, 0⟩,
        ⟨.identifier, ['a'], 8⟩, ⟨.mark .dot, ['.'], 9⟩, ⟨.identifier, ['b'], 11⟩]) = true := by
    decide +kernel
  obtain ⟨q, hq, hboth⟩ := List.any_eq_true.mp hfound
  obtain ⟨hkind, hheading⟩ := Bool.and_eq_true_iff.mp hboth
  exact ⟨q, hq, eq_of_beq hkind, eq_of_beq hheading⟩

theorem heading_breaks_over_line : ∃ q ∈ (parse "package a.\nb := 1").walk [],
    q.1.kind.isHeading = true ∧ ⟨.identifier, ['b'], 11⟩ ∈ q.1.heading ∧
      q.1.heading.IsChain fun u v =>
        BreaksBefore (Token.scan "package a.\nb := 1".toList) v → Crosses q.1.kind u v := by
  obtain ⟨q, hq, hkind, hheading⟩ := package_over_line
  have hshown : q.1.kind.isHeading = true := by rw [hkind]; rfl
  have hname : ⟨.identifier, ['b'], 11⟩ ∈ q.1.heading := by rw [hheading]; decide
  exact ⟨q, hq, hshown, hname, heading_breaks _ q hq hshown⟩

/-- So a heading does not end with its line. -/
theorem dot_swallows_next_line : ¬ ∀ source : String, ∀ q ∈ (parse source).walk [],
    q.1.kind.isHeading = true → ∀ v ∈ q.1.heading.tail,
      ¬ BreaksBefore (Token.scan source.toList) v := by
  intro h
  obtain ⟨q, hq, hkind, hheading⟩ := package_over_line
  have hshown : q.1.kind.isHeading = true := by rw [hkind]; rfl
  have hname : ⟨.identifier, ['b'], 11⟩ ∈ q.1.heading.tail := by rw [hheading]; decide
  have hbreaks : BreaksBefore (Token.scan "package a.\nb := 1".toList) ⟨.identifier, ['b'], 11⟩ :=
    ⟨(Token.scan "package a.\nb := 1".toList).take 4, [⟨.whitespace, ['\n'], 10⟩],
      (Token.scan "package a.\nb := 1".toList).drop 6, by decide +kernel, by decide, _,
      List.mem_singleton_self _, by decide⟩
  exact h _ q hq hshown _ hname hbreaks

end PolicyEditor.Grammar
