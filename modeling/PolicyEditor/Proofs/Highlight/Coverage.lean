import PolicyEditor.Highlight
import PolicyEditor.Proofs.Grammar.Leaves
import PolicyEditor.Proofs.Grammar.ScriptShape
import PolicyEditor.Proofs.Tree.Cursor

/-!
Highlighting covers the text. Every leaf but white space is styled, whatever the rule that made it:
its kind is that of its token, or it is a name. So the spans are the tokens of the text one by one,
white space left out, and inherit from them that they are not empty and follow one another.
-/

namespace PolicyEditor

open PolicyEditor.Tree (tokens)

namespace Token

/-- Of tokens that follow one another at most one covers a character. -/
theorem Over.unique {ts : List Token} (h : Successive ts) {t u : Token} (ht : t ∈ ts) (hu : u ∈ ts)
    {i : Nat} (hti : t.Over i) (hui : u.Over i) : t = u := by
  by_contra hne
  have happart : t.stop ≤ u.start ∨ u.stop ≤ t.start := by
    have hboth : ts.Pairwise fun t u => t.stop ≤ u.start ∨ u.stop ≤ t.start := h.imp Or.inl
    have : Std.Symm fun t u : Token => t.stop ≤ u.start ∨ u.stop ≤ t.start := ⟨fun _ _ => Or.symm⟩
    exact hboth.forall ht hu hne
  have h₁ := hti.1
  have h₂ := hti.2
  have h₃ := hui.1
  have h₄ := hui.2
  omega

end Token

namespace Tree

variable {declared : Bool} {cs : List Tree}

/-- A walk comes to a node that is neither blank nor comment only through such a node. -/
theorem Formed.exists_not_trivia (h : Formed declared cs) {above : List Tree}
    {p : Tree × List Tree} (hp : p ∈ Tree.walkList above cs) (hplain : p.1.isTrivia = false) :
    ∃ c ∈ cs, c.isTrivia = false := by
  induction h with
  | nil => cases hp
  | leaf _ _ ih =>
    rw [Tree.walkList, Tree.walk, List.singleton_append] at hp
    rcases List.mem_cons.mp hp with rfl | hp
    · exact ⟨_, List.mem_cons_self, hplain⟩
    · obtain ⟨c, hc, hshown⟩ := ih hp
      exact ⟨c, List.mem_cons_of_mem _ hc, hshown⟩
  | node hfits => exact ⟨_, List.mem_cons_self, hfits.not_trivia⟩

/-- Above a leaf that is neither blank nor comment every node has a child that is neither. -/
theorem Formed.significant_above (h : Formed declared cs) {above : List Tree}
    {p : Tree × List Tree} (hp : p ∈ Tree.walkList above cs) (hplain : p.1.isTrivia = false) :
    ∀ a ∈ p.2, a ∈ above ∨ a.significant ≠ [] := by
  induction h generalizing above with
  | nil => cases hp
  | leaf _ _ ih =>
    rw [Tree.walkList, Tree.walk, List.singleton_append] at hp
    rcases List.mem_cons.mp hp with rfl | hp
    · exact fun a ha => .inl ha
    · exact ih hp
  | @node declared k a b ds cs _ hds _ ihInner ihOuter =>
    rw [Tree.walkList, Tree.walk, List.cons_append] at hp
    rcases List.mem_cons.mp hp with rfl | hp
    · exact fun a ha => .inl ha
    rcases List.mem_append.mp hp with hp | hp
    · intro n hn
      rcases ihInner hp n hn with hn | hn
      · rcases List.mem_append.mp hn with hn | hn
        · exact .inl hn
        -- The node itself: the walk has come into it, so one of its children is significant.
        · right
          obtain rfl := List.mem_singleton.mp hn
          obtain ⟨c, hc, hshown⟩ := hds.exists_not_trivia hp hplain
          apply List.ne_nil_of_mem (a := c)
          show c ∈ ds.filter fun c => !c.isTrivia
          rw [List.mem_filter, hshown]
          exact ⟨hc, rfl⟩
      · exact .inr hn
    · exact ihOuter hp

end Tree

namespace Highlight

def Span.range (s : Span) : Nat × Nat :=
  (s.start, s.stop)

def inked (ts : List Token) : List Token :=
  ts.filter fun t => t.kind != .whitespace

theorem mem_inked {ts : List Token} {t : Token} : t ∈ inked ts ↔ t ∈ ts ∧ t.kind ≠ .whitespace := by
  rw [inked, List.mem_filter, bne_iff_ne]

theorem inked_append (ts us : List Token) : inked (ts ++ us) = inked ts ++ inked us :=
  List.filter_append ts us

/-- A leaf is styled unless it is white space. -/
theorem leafStyle?_isSome {k : NodeKind} {t : Token} (h : isLeafOf k t = true) (place : Place) :
    (leafStyle? place k t).isSome = (t.kind != .whitespace) := by
  rw [isLeafOf, Bool.or_eq_true, Bool.and_eq_true, beq_iff_eq, beq_iff_eq] at h
  rcases h with rfl | ⟨rfl, hname⟩
  · unfold leafStyle?
    -- One case for each kind of token; a bar has two styles, after its parent.
    cases hkind : t.kind with
    | operator sign => cases sign <;> rfl
    | _ => rfl
  · show true = _
    cases hkind : t.kind with
    | whitespace =>
      rw [hkind] at hname
      cases hname
    | _ => rfl

theorem ranges_leaf {k : NodeKind} {t : Token} (h : isLeafOf k t = true) (place : Place) :
    (spansAt place (.leaf k t)).map Span.range =
      (inked [t]).map fun u => (u.start, u.stop) := by
  have hstyle := leafStyle?_isSome h place
  rw [spansAt, inked, List.filter_singleton, ← hstyle]
  cases leafStyle? place k t <;> rfl

/-- The spans of well formed trees are their tokens, white space left out. -/
theorem ranges_spansOfList {declared : Bool} {cs : List Tree} (h : Tree.Formed declared cs)
    (parent : NodeKind) (place : Place) (left : Left) :
    (spansOfList parent place left cs).map Span.range =
      (inked (tokens cs)).map fun t => (t.start, t.stop) := by
  induction h generalizing parent place left with
  | nil => rfl
  | @leaf _ k t cs hleaf _ ih =>
    have hsplit : inked (tokens (.leaf k t :: cs)) = inked [t] ++ inked (tokens cs) :=
      inked_append [t] (tokens cs)
    rw [spansOfList, List.map_append, ranges_leaf hleaf, ih, hsplit, List.map_append]
  | node _ _ _ ihInner ihOuter =>
    rw [spansOfList, spansAt, List.map_append, ihInner, ihOuter, Tree.tokens_node,
      inked_append, List.map_append]

theorem ranges_spans {tree : Tree} (h : Tree.Formed false [tree]) :
    (spans tree).map Span.range = (inked (tokens [tree])).map fun t => (t.start, t.stop) := by
  cases tree with
  | leaf k t =>
    cases h with
    | leaf hleaf => exact ranges_leaf hleaf _
  | node k a b cs =>
    cases h with
    | node _ hcs =>
      have hroot : tokens [.node k a b cs] = tokens cs := by
        rw [Tree.tokens_node]
        exact List.append_nil _
      rw [spans, spansAt, ranges_spansOfList hcs, hroot]

/-- A text's spans: one for each token that is not white space, in order, none empty and none over
another; just the characters of white space are not styled. The style of an identifier asks each
node above it for its first or last significant child, and there is one. -/
structure Styles (source : String) (tree : Tree) : Prop where
  tokens : (spans tree).map Span.range =
    ((Token.scan source.toList).filter fun t => t.kind != .whitespace).map fun t => (t.start, t.stop)
  nonempty : ∀ s ∈ spans tree, s.start < s.stop
  ordered : (spans tree).Pairwise fun a b => a.stop ≤ b.start
  styled : ∀ i < source.length, (∃ s ∈ spans tree, s.start ≤ i ∧ i < s.stop) ↔
    ¬ ∃ t ∈ Token.scan source.toList, t.kind = .whitespace ∧ t.start ≤ i ∧ i < t.stop
  answers : ∀ p ∈ tree.walk [], p.1.kind = .identifier → ∀ a ∈ p.2, a.significant ≠ []

theorem nonempty_scan {source : List Char} {t : Token} (ht : t ∈ Token.scan source) :
    t.start < t.stop := by
  have hne := ((Token.scanFrom_splits 0 source).tokenizes).nonempty t ht
  exact Nat.lt_add_of_pos_right (List.length_pos_of_ne_nil hne)

/-- A span is the range of a styled token. -/
theorem exists_token_of_span {ts : List Token} {ss : List Span}
    (h : ss.map Span.range = (inked ts).map fun t => (t.start, t.stop)) {s : Span} (hs : s ∈ ss) :
    ∃ t ∈ inked ts, t.start = s.start ∧ t.stop = s.stop := by
  have hmem : s.range ∈ (inked ts).map fun t => (t.start, t.stop) := h ▸ List.mem_map_of_mem hs
  obtain ⟨t, ht, heq⟩ := List.mem_map.mp hmem
  exact ⟨t, ht, Prod.mk.inj heq⟩

theorem exists_span_of_token {ts : List Token} {ss : List Span}
    (h : ss.map Span.range = (inked ts).map fun t => (t.start, t.stop)) {t : Token}
    (ht : t ∈ inked ts) : ∃ s ∈ ss, s.start = t.start ∧ s.stop = t.stop := by
  have hmem : (t.start, t.stop) ∈ ss.map Span.range :=
    h ▸ List.mem_map_of_mem (f := fun t : Token => (t.start, t.stop)) ht
  obtain ⟨s, hs, heq⟩ := List.mem_map.mp hmem
  exact ⟨s, hs, Prod.mk.inj heq⟩

/-- What has the ranges of tokens that follow one another follows one another. -/
theorem ordered_of_ranges {ts : List Token} {ss : List Span}
    (h : ss.map Span.range = (inked ts).map fun t => (t.start, t.stop))
    (hts : Token.Successive ts) : ss.Pairwise fun a b => a.stop ≤ b.start := by
  have htokens : (inked ts).Pairwise fun t u => t.stop ≤ u.start := List.Pairwise.filter _ hts
  have hranges : ((inked ts).map fun t => (t.start, t.stop)).Pairwise fun p q => p.2 ≤ q.1 :=
    List.pairwise_map.mpr htokens
  rw [← h] at hranges
  exact List.pairwise_map.mp hranges

/-- Spans with the ranges of a text's styled tokens lie over all but its white space. -/
theorem styled_iff {source : List Char} {ss : List Span}
    (h : ss.map Span.range = (inked (Token.scan source)).map fun t => (t.start, t.stop)) {i : Nat}
    (hi : i < source.length) : (∃ s ∈ ss, s.start ≤ i ∧ i < s.stop) ↔
      ¬ ∃ t ∈ Token.scan source, t.kind = .whitespace ∧ t.start ≤ i ∧ i < t.stop := by
  constructor
  · rintro ⟨s, hs, hover⟩ ⟨u, hu, hwhite, hblank⟩
    obtain ⟨t, ht, hstart, hstop⟩ := exists_token_of_span h hs
    obtain ⟨hmem, hink⟩ := mem_inked.mp ht
    have hsame : t = u := by
      apply Token.Over.unique (Token.successive_scan source) hmem hu (i := i)
      · show t.start ≤ i ∧ i < t.stop
        rwa [hstart, hstop]
      · exact hblank
    exact hink (hsame ▸ hwhite)
  · intro hblank
    have hlength : i < 0 + source.length := by rwa [Nat.zero_add]
    obtain ⟨t, ht, hover⟩ := (Token.scanFrom_splits 0 source).over (Nat.zero_le i) hlength
    have hink : t.kind ≠ .whitespace := fun hwhite => hblank ⟨t, ht, hwhite, hover⟩
    obtain ⟨s, hs, hstart, hstop⟩ := exists_span_of_token h (mem_inked.mpr ⟨ht, hink⟩)
    refine ⟨s, hs, ?_⟩
    rw [hstart, hstop]
    exact hover

theorem ranges_parse (source : String) : (spans (Grammar.parse source)).map Span.range =
    (inked (Token.scan source.toList)).map fun t => (t.start, t.stop) := by
  have htokens : tokens [Grammar.parse source] = Token.scan source.toList :=
    Grammar.tokens_parseChars source.toList
  exact htokens ▸ ranges_spans (Grammar.formed_parse source)

theorem ordered_parse (source : String) :
    (spans (Grammar.parse source)).Pairwise fun a b => a.stop ≤ b.start :=
  ordered_of_ranges (ranges_parse source) (Token.successive_scan source.toList)

theorem nonempty_parse (source : String) : ∀ s ∈ spans (Grammar.parse source), s.start < s.stop := by
  intro s hs
  obtain ⟨t, ht, hstart, hstop⟩ := exists_token_of_span (ranges_parse source) hs
  have hlt := nonempty_scan (mem_inked.mp ht).1
  omega

/-- Highlighting covers every text exactly. -/
theorem spans_parse_cover (source : String) : Styles source (Grammar.parse source) := by
  have hformed := Grammar.formed_parse source
  constructor
  case tokens => exact ranges_parse source
  case ordered => exact ordered_parse source
  case nonempty => exact nonempty_parse source
  case styled =>
    intro i hi
    rw [← String.length_toList] at hi
    exact styled_iff (ranges_parse source) hi
  case answers =>
    intro p hp hkind a ha
    have hwalk : p ∈ Tree.walkList [] [Grammar.parse source] := by
      show p ∈ Tree.walk [] (Grammar.parse source) ++ []
      rwa [List.append_nil]
    have hplain : p.1.isTrivia = false := by
      show p.1.kind.isTrivia = false
      rw [hkind]
      rfl
    rcases hformed.significant_above hwalk hplain a ha with hnone | hsignificant
    · cases hnone
    · exact hsignificant

end Highlight

end PolicyEditor
