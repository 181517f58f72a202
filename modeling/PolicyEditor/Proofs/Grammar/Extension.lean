import PolicyEditor.Proofs.Grammar.Nesting
import PolicyEditor.Proofs.Grammar.OperandCoverage
import PolicyEditor.Proofs.Tree.Clean
import PolicyEditor.Proofs.Tree.Shift

/-!
A text within a longer one: it stands further to the right, and another declaration may follow it.
What the grammar makes of the items of the text, it makes of them in the longer text too. Where
something follows, this holds of what is read without error: only a rule that misses something may
look for it in the lines that follow.
-/

namespace PolicyEditor.Grammar

open PolicyEditor.Tree (cleanAll)

def beginsDeclaration : Token.Kind → Bool
  | .keyword .packageKw | .keyword .importKw | .keyword .defaultKw | .identifier => true
  | _ => false

def Item.shift (n : Nat) (i : Item) : Item :=
  { i with token := i.token.shift n }

theorem Item.map_shift_zero (ts : List Item) : ts.map (Item.shift 0) = ts := by
  induction ts with
  | nil => rfl
  | cons i ts ih => rw [List.map_cons, ih, Item.shift, Token.shift_zero]

/-- How a text stands in a longer one: the offset of its first character, the items that follow it,
and how many characters do. What follows begins a declaration on a line of its own. -/
structure Extension where
  offset : Nat
  more : List Item
  length : Nat
  apart : ∀ i ∈ more.head?, i.newline = true ∧ beginsDeclaration i.kind = true
  nothing : more = [] → length = 0

namespace Extension

variable (x : Extension)

def items (ts : List Item) : List Item :=
  ts.map (Item.shift x.offset) ++ x.more

def tree (t : Tree) : Tree :=
  t.shift x.offset

def scope (s : Scope) : Scope :=
  { s with eof := x.offset + s.eof + x.length }

def parsed (p : Parsed) : Parsed :=
  (x.tree p.1, x.items p.2)

def parsedList (p : ParsedList) : ParsedList :=
  (p.1.map x.tree, x.items p.2)

/-- If something follows the text, then none of these nodes is an error. -/
def Admits (cs : List Tree) : Prop :=
  x.more = [] ∨ cleanAll cs = true

/-- Fewer than `n` items, and if something follows the text, then every bracket that opens among
them closes. -/
def Fits (n : Nat) (ts : List Item) : Prop :=
  ts.length < n ∧ (x.more = [] ∨ Closed ts)

@[simp] theorem items_nil : x.items [] = x.more := rfl

@[simp] theorem items_cons (i : Item) (ts : List Item) :
    x.items (i :: ts) = i.shift x.offset :: x.items ts := rfl

theorem items_of_nothing (h : x.more = []) (ts : List Item) :
    x.items ts = ts.map (Item.shift x.offset) := by
  rw [items, h, List.append_nil]

@[simp] theorem length_items (ts : List Item) :
    (x.items ts).length = ts.length + x.more.length := by
  rw [items, List.length_append, List.length_map]

/-- What follows the text, if anything: an item that begins a declaration on a line of its own. -/
theorem more_cases : x.more = [] ∨ ∃ i rest, x.more = i :: rest ∧ i.newline = true ∧
    beginsDeclaration i.kind = true := by
  rcases hmore : x.more with _ | ⟨i, rest⟩
  · exact .inl rfl
  · exact .inr ⟨i, rest, rfl, x.apart i (by rw [hmore]; rfl)⟩

end Extension

@[simp] theorem Item.kind_shift (n : Nat) (i : Item) : (i.shift n).kind = i.kind := (rfl)

@[simp] theorem Item.newline_shift (n : Nat) (i : Item) : (i.shift n).newline = i.newline := (rfl)

namespace Extension

variable {x : Extension}

@[simp] theorem stops_scope (s : Scope) (i : Item) :
    (x.scope s).stops (i.shift x.offset) = s.stops i := (rfl)

@[simp] theorem bracketed_scope (s : Scope) : (x.scope s).bracketed = x.scope s.bracketed := rfl

@[simp] theorem statement_scope (s : Scope) : (x.scope s).statement = x.scope s.statement := rfl

@[simp] theorem bars_scope (s : Scope) : (x.scope s).bars = s.bars := (rfl)

theorem here_scope (s : Scope) {ts : List Item} (h : x.more = [] ∨ ts ≠ []) :
    (x.scope s).here (x.items ts) = x.offset + s.here ts := by
  cases ts with
  | nil =>
    have hmore : x.more = [] := h.resolve_right fun hne => hne rfl
    rw [items_nil, hmore, Scope.here, Scope.here, scope, x.nothing hmore, Nat.add_zero]
  | cons i ts => rfl

theorem tree_enclose (k : NodeKind) (here : Nat) (cs : List Tree) :
    x.tree (.enclose k here cs) = .enclose k (x.offset + here) (cs.map x.tree) :=
  Tree.shift_enclose x.offset k here cs

/-! ### What an extension admits -/

namespace Admits

variable {c : Tree} {cs ds : List Tree}

theorem cons_iff : x.Admits (c :: cs) ↔ x.Admits [c] ∧ x.Admits cs := by
  simp only [Admits, cleanAll, Bool.and_eq_true, and_true]
  exact or_and_left

theorem append_iff : x.Admits (cs ++ ds) ↔ x.Admits cs ∧ x.Admits ds := by
  simp only [Admits, Tree.cleanAll_append, Bool.and_eq_true]
  exact or_and_left

theorem children {k : NodeKind} {here : Nat} (h : x.Admits [.enclose k here cs]) : x.Admits cs :=
  h.imp_right fun hclean => Tree.cleanAll_of_clean_enclose (Tree.cleanAll_cons.mp hclean).1

theorem nothing_follows (h : x.Admits [c]) (hc : c.clean = false) : x.more = [] := by
  refine h.resolve_right fun hclean => ?_
  rw [(Tree.cleanAll_cons.mp hclean).1] at hc
  cases hc

end Admits

/-! ### Items that fit -/

namespace Fits

variable {n : Nat} {i : Item} {ts us : List Item}

theorem of_suffix (h : x.Fits n ts) (hus : us.map Item.kind <:+ ts.map Item.kind) :
    x.Fits n us := by
  refine ⟨Nat.lt_of_le_of_lt ?_ h.1, h.2.imp_right fun hclosed => hclosed.of_suffix hus⟩
  have hle := hus.length_le
  rwa [List.length_map, List.length_map] at hle

theorem of_covers (h : x.Fits n ts) {eof : Nat} {cs : List Tree} (hcovers : Covers eof ts cs us) :
    x.Fits n us := by
  refine h.of_suffix ⟨(Tree.tokens cs).map Token.kind, ?_⟩
  have hkinds : ∀ is : List Item, is.map Item.kind = (is.map Item.token).map Token.kind :=
    fun is => by rw [List.map_map]; rfl
  rw [hkinds, hkinds, ← List.map_append, Tree.Reads.tokens_append_rest hcovers]

theorem rest (h : x.Fits n (i :: ts)) : x.Fits n ts :=
  h.of_suffix (List.suffix_cons i.kind _)

theorem tail (h : x.Fits (n + 1) (i :: ts)) : x.Fits n ts :=
  ⟨Nat.lt_of_succ_lt_succ h.1, h.rest.2⟩

theorem mono (h : x.Fits n ts) {m : Nat} (hle : n ≤ m) : x.Fits m ts :=
  ⟨Nat.lt_of_lt_of_le h.1 hle, h.2⟩

end Fits

/-! ### What brackets open -/

theorem run_shift (b : BraceScan) (n : Nat) (ts : List Item) :
    b.run (ts.map (Item.shift n)) = b.run ts := by
  induction ts generalizing b with
  | nil => rfl
  | cons i rest ih =>
    have hnote : b.note (i.shift n) = b.note i := rfl
    have hnest : ∀ c : BraceScan, c.nest (i.shift n) = c.nest i := fun _ => rfl
    simp only [List.map_cons, BraceScan.run, Item.kind_shift, hnote, hnest, ih]

theorem barBeforeClose_shift (n depth : Nat) (ts : List Item) :
    barBeforeClose depth (ts.map (Item.shift n)) = barBeforeClose depth ts := by
  induction ts generalizing depth with
  | nil => rfl
  | cons i rest ih => simp only [List.map_cons, barBeforeClose, Item.kind_shift, ih]

section

variable {n : Nat} {i : Item} {rest : List Item}

/-- What is told from the items up to the counterpart of a bracket is told so in the longer text. -/
theorem items_of_closed {α : Type} {f : List Item → α} (h : x.Fits n (i :: rest))
    (hi : i.kind.isOpener = true) (hshift : ∀ ts, f (ts.map (Item.shift x.offset)) = f ts)
    (hlocal : ∀ {inside : List Item} {j : Item}, Balanced inside → j.kind.isCloser = true →
      ∀ after after', f (inside ++ j :: after) = f (inside ++ j :: after')) :
    f (x.items rest) = f rest := by
  rcases h.2 with hmore | hclosed
  · rw [x.items_of_nothing hmore, hshift]
  -- Only what follows the counterpart differs, and that is not looked at.
  · obtain ⟨inside, j, after, rfl, hinside, hj⟩ := hclosed.split hi
    have hshifted : Balanced (inside.map (Item.shift x.offset)) :=
      .of_kinds hinside (by rw [List.map_map]; rfl)
    have hcloser : (j.shift x.offset).kind.isCloser = true := hj
    rw [items, List.map_append, List.map_cons, List.append_assoc, List.cons_append,
      hlocal hshifted hcloser _ (after.map (Item.shift x.offset)), ← List.map_cons,
      ← List.map_append, hshift]

theorem classifyBrace_items (h : x.Fits n (i :: rest)) (hi : i.kind.isOpener = true) :
    classifyBrace (x.items rest) = classifyBrace rest :=
  items_of_closed h hi (run_shift {} x.offset) classifyBrace_local

theorem classifyBracket_items (h : x.Fits n (i :: rest)) (hi : i.kind.isOpener = true) :
    classifyBracket (x.items rest) = classifyBracket rest :=
  items_of_closed h hi (fun ts => by simp only [classifyBracket, barBeforeClose_shift])
    classifyBracket_local

end

end Extension

end PolicyEditor.Grammar
