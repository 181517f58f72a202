import PolicyEditor.Proofs.Grammar.ScriptShape
import PolicyEditor.Proofs.Grammar.TriviaIndependence
import PolicyEditor.Proofs.Token.Replacement
import PolicyEditor.Proofs.Tree.Owners

/-!
Reserved words as names of members. The rules take any name after a dot, but two looks at the tokens
do not know of dots: the one that tells what a brace opens, and the one that tells whether a line
break ends a statement. Where both come to the same as before, a reserved word in the place of a
member's name changes nothing but the kind of its token.
-/

namespace PolicyEditor.Grammar

/-- The name after the dot of a reference, on the line of the dot. -/
def IsMember (source : String) (x : Token) : Prop :=
  (∃ q ∈ (parse source).walk [], q.1.kind = .refExpression ∧ ∃ front d back,
    d.kind = .mark .dot ∧
      q.1.faces = front ++ .leaf .punctuation d :: .leaf .identifier x :: back) ∧
    ∃ i ∈ items (Token.scan source.toList), i.token = x ∧ i.newline = false

def replaceBy (source : String) (x : Token) (word : Keyword) : String :=
  String.ofList (Token.replaceBy source.toList x word)

def renamed (x : Token) (word : Keyword) (t : Token) : Token.Kind :=
  if t = x then .keyword word else t.kind

def verdicts (ts : List Item) : List NodeKind :=
  (classifyAll ts).map (·.2)

def readings (source : String) : List Bool × List NodeKind :=
  let ts := items (Token.scan source.toList)
  (ts.map Item.breaks, verdicts ts)

/-- A member shown by its place in the tree. -/
theorem isMember_of_walk {source : String} {d x : Token} (n : Nat) (front back : List Face)
    (hwalk : ((parse source).walk [])[n]?.map (fun q => (q.1.kind, q.1.faces)) =
      some (.refExpression, front ++ .leaf .punctuation d :: .leaf .identifier x :: back))
    (hdot : d.kind = .mark .dot)
    (hline : ∃ i ∈ items (Token.scan source.toList), i.token = x ∧ i.newline = false) :
    IsMember source x := by
  obtain ⟨q, hq, hseen⟩ := Option.map_eq_some_iff.mp hwalk
  obtain ⟨hkind, hfaces⟩ := Prod.mk.inj hseen
  exact ⟨⟨q, List.mem_of_getElem? hq, hkind, front, d, back, hdot, hfaces⟩, hline⟩

/-! ### What the grammar sees after a name has been replaced -/

theorem sights_itemsAfter {kind : Token → Token.Kind} (last last' : Option Token.Kind)
    (newline : Bool) {ts us : List Token} (hkind : ∀ t ∈ ts, (kind t).isTrivia = t.isTrivia)
    (h : us.map (fun u => (u.kind, u.isTrivia && u.chars.contains '\n')) =
      ts.map fun t => (kind t, t.isTrivia && t.chars.contains '\n')) :
    (itemsAfter last' newline us).map Item.sight =
      (itemsAfter last newline ts).map fun i => (kind i.token, i.newline) := by
  induction ts generalizing us last last' newline with
  | nil =>
    obtain rfl := List.map_eq_nil_iff.mp h
    rfl
  | cons t ts ih =>
    obtain ⟨u, us, rfl, hu, hus⟩ := List.map_eq_cons_iff.mp h
    obtain ⟨ht, hts⟩ := List.forall_mem_cons.mp hkind
    obtain ⟨hsame, hbreak⟩ := Prod.mk.inj hu
    have htrivia : u.isTrivia = t.isTrivia := by
      rw [← ht, ← hsame]
      rfl
    by_cases hblank : t.isTrivia = true
    · rw [htrivia, hblank, Bool.true_and, Bool.true_and] at hbreak
      rw [itemsAfter, itemsAfter, htrivia, if_pos hblank, if_pos hblank, hbreak]
      exact ih last last' _ hts hus
    · rw [itemsAfter, itemsAfter, htrivia, if_neg hblank, if_neg hblank, List.map_cons,
        List.map_cons, ih (some t.kind) (some u.kind) false hts hus]
      exact congrArg (· :: _) (Prod.ext hsame rfl)

theorem sights_replaceBy {source : String} {x : Token} (hx : x ∈ Token.scan source.toList)
    (hname : x.kind.isName = true) (word : Keyword) :
    sights (replaceBy source x word) =
      (items (Token.scan source.toList)).map fun i => (renamed x word i.token, i.newline) := by
  obtain ⟨us, vs, hscan⟩ := List.append_of_mem hx
  obtain ⟨vs', hcontent, hscan'⟩ := Token.scan_replaceBy hscan hname word
  have hnodup := nodup_scan source.toList
  rw [hscan] at hnodup
  have hnot : x ∉ us ++ vs := (List.nodup_middle.mp hnodup).notMem
  have hothers : ∀ t ∈ us ++ vs, renamed x word t = t.kind := by
    intro t ht
    refine if_neg fun heq => hnot ?_
    rwa [heq] at ht
  have hself : renamed x word x = .keyword word := if_pos rfl
  have hword : x.isTrivia = false := by
    unfold Token.isTrivia
    cases hk : x.kind <;> first | rfl | (rw [hk] at hname; cases hname)
  unfold sights items replaceBy
  rw [String.toList_ofList, hscan', hscan]
  apply sights_itemsAfter
  · intro t ht
    by_cases heq : t = x
    · rw [heq, hself, hword]
      rfl
    · rw [renamed, if_neg heq]
      rfl
  · obtain ⟨hus, hvs⟩ := List.forall_mem_append.mp hothers
    rw [List.map_append, List.map_append, List.map_cons, List.map_cons, hself, hword]
    have hbefore : us.map (fun t => (t.kind, t.isTrivia && t.chars.contains '\n')) =
        us.map fun t => (renamed x word t, t.isTrivia && t.chars.contains '\n') :=
      List.map_congr_left fun t ht => by rw [hus t ht]
    have hafter : vs'.map (fun t => (t.kind, t.isTrivia && t.chars.contains '\n')) =
        vs.map fun t => (renamed x word t, t.isTrivia && t.chars.contains '\n') := by
      let look (c : Token.Kind × List Char) := (c.1, c.1.isTrivia && c.2.contains '\n')
      have hlook := congrArg (List.map look) hcontent
      rw [List.map_map, List.map_map] at hlook
      exact hlook.trans (List.map_congr_left fun t ht => by rw [hvs t ht]; rfl)
    rw [hbefore, hafter]
    rfl

/-! ### Braces that open what they opened -/

theorem verdicts_cons (i : Item) (rest : List Item) : verdicts (i :: rest) =
    (if i.kind = .mark .lbrace then [classifyBrace rest]
      else if i.kind = .mark .lbracket then [classifyBracket rest] else []) ++ verdicts rest := by
  unfold verdicts
  rw [classifyAll]
  split
  · rfl
  · split <;> rfl

namespace Recast

variable {φ : Recast}

theorem verdicts_tail {i : Item} {rest : List Item} (hi : φ.bound i.token = false)
    (h : verdicts ((i :: rest).map φ.item) = verdicts (i :: rest)) :
    (i.kind = .mark .lbrace → classifyBrace (rest.map φ.item) = classifyBrace rest) ∧
      verdicts (rest.map φ.item) = verdicts rest := by
  rw [List.map_cons, verdicts_cons, verdicts_cons, kind_item_of_unbound hi] at h
  split at h
  · obtain ⟨hverdict, hrest⟩ := List.cons.inj h
    exact ⟨fun _ => hverdict, hrest⟩
  case isFalse hbrace =>
    refine ⟨fun hi => absurd hi hbrace, ?_⟩
    split at h
    · exact (List.cons.inj h).2
    · exact h

/-- Items of which only a dot and the name behind it are bound. -/
theorem intact_around {is js : List Item} {i j : Item}
    (hothers : ∀ k ∈ is ++ js, φ.bound k.token = false) (hi : φ.bound i.token = true)
    (hdot : i.kind = .mark .dot) (hdot' : (φ.item i).kind = .mark .dot)
    (hname : j.kind.isName = true) (hname' : (φ.item j).kind.isName = true)
    (hline : j.newline = false)
    (h : verdicts ((is ++ i :: j :: js).map φ.item) = verdicts (is ++ i :: j :: js)) :
    φ.Intact (is ++ i :: j :: js) := by
  induction is with
  | nil => exact .member hi hdot hdot' hname hname' hline (intact_of_unbound hothers)
  | cons k is ih =>
    obtain ⟨hk, hrest⟩ := List.forall_mem_cons.mp hothers
    obtain ⟨hbrace, hverdicts⟩ := verdicts_tail hk h
    exact .cons hk hbrace (ih hrest hverdicts)

theorem verdicts_plain (ts : List Item) : verdicts (ts.map plain.item) = verdicts ts := by
  induction ts with
  | nil => rfl
  | cons i rest ih =>
    have hbrace : classifyBrace (rest.map plain.item) = classifyBrace rest := run_plain {} rest
    have hkind : (plain.item i).kind = i.kind := rfl
    rw [List.map_cons, verdicts_cons, verdicts_cons, hkind, ih, hbrace,
      (intact_plain rest).classifyBracket]

end Recast

/-! ### The dot and the name -/

def binding (d x : Token) (word : Keyword) : Recast where
  kind := renamed x word
  bound t := t = d || t = x
  kind_eq t h := by
    rw [Bool.or_eq_false_iff, decide_eq_false_iff_not, decide_eq_false_iff_not] at h
    exact if_neg h.2

structure Placed (source : String) (d x : Token) : Prop where
  dot : d.kind = .mark .dot
  name : x.kind.isName = true
  adjacent : ∃ is i j js, items (Token.scan source.toList) = is ++ i :: j :: js ∧ i.token = d ∧
    j.token = x ∧ j.newline = false
  spared : ∀ k, (d, k) ∈ Tree.ownedAll .script [parse source] ∨
    (x, k) ∈ Tree.ownedAll .script [parse source] → k = .refExpression

theorem IsMember.placed {source : String} {x : Token} (h : IsMember source x) :
    ∃ d, Placed source d x := by
  obtain ⟨⟨q, hq, hkind, front, d, back, hdot, hfaces⟩, i, hi, hix, hline⟩ := h
  have hq' : q ∈ Tree.walkList [] [parse source] := by
    rwa [Tree.walkList, Tree.walkList, List.append_nil]
  obtain ⟨⟨before, after, hwords⟩, hleaf⟩ := (formed_parse source).neighbours hq' hfaces
  have htokens : Tree.tokens [parse source] = Token.scan source.toList :=
    tokens_parseChars source.toList
  rw [Tree.words, htokens, ← items_tokens] at hwords
  have hnodup := nodup_items source.toList
  refine ⟨d, hdot, ?_, ?_, ?_⟩
  · rw [isLeafOf, Bool.or_eq_true, Bool.and_eq_true, beq_iff_eq] at hleaf
    rcases hleaf with hleaf | hleaf
    · cases hx : x.kind <;> rw [hx] at hleaf <;> first | rfl | cases hleaf
    · exact hleaf.2
  · obtain ⟨is, rest, hitems, -, hrest⟩ := List.map_eq_append_iff.mp hwords
    obtain ⟨i', rest, rfl, hi', hrest⟩ := List.map_eq_cons_iff.mp hrest
    obtain ⟨j, js, rfl, hj, -⟩ := List.map_eq_cons_iff.mp hrest
    have hmem : j ∈ items (Token.scan source.toList) := by
      rw [hitems]
      exact List.mem_append_right _ (List.mem_cons_of_mem _ List.mem_cons_self)
    obtain rfl := List.inj_on_of_nodup_map hnodup hi hmem (hix.trans hj.symm)
    exact ⟨is, i', i, js, hitems, hi', hix, hline⟩
  · have howned : ∀ t ∈ Tree.topTokens q.1.children,
        (t, .refExpression) ∈ Tree.ownedAll .script [parse source] := by
      intro t ht
      rw [← hkind]
      exact Tree.mem_ownedAll_of_walk .script _ q hq' ht
    have hunique : (Tree.tokens [parse source]).Nodup := htokens ▸ nodup_scan source.toList
    have hd : d ∈ Tree.topTokens q.1.children := Tree.mem_topTokens_of_face (by
      rw [hfaces]
      exact List.mem_append_right _ List.mem_cons_self)
    have hx : x ∈ Tree.topTokens q.1.children := Tree.mem_topTokens_of_face (by
      rw [hfaces]
      exact List.mem_append_right _ (List.mem_cons_of_mem _ List.mem_cons_self))
    rintro k (hk | hk)
    · exact Tree.owner_unique hunique hk (howned d hd)
    · exact Tree.owner_unique hunique hk (howned x hx)

theorem Placed.spares {source : String} {d x : Token} (h : Placed source d x) (word : Keyword) :
    (binding d x word).Spares
      (script source.toList.length (items (Token.scan source.toList))) := by
  refine Tree.sparesAll_of_owned .script _ fun p hp herror => ?_
  have hdressed := Tree.ownedAll_dressList .script
    ((Token.scan source.toList).filter Token.isTrivia) _ hp
  have howned : p ∈ Tree.ownedAll .script [parse source] := by
    unfold parse
    rw [Tree.ownedAll, parseChars_eq, Tree.dressScript, Tree.owned, Tree.ownedAll_append]
    exact List.mem_append_left _ (List.mem_append_left _ hdressed)
  obtain ⟨t, k⟩ := p
  obtain rfl : k = .error := herror
  show (decide (t = d) || decide (t = x)) = false
  rw [Bool.or_eq_false_iff, decide_eq_false_iff_not, decide_eq_false_iff_not]
  constructor
  · rintro rfl
    cases h.spared .error (.inl howned)
  · rintro rfl
    cases h.spared .error (.inr howned)

/-- Of all items only the dot and the name are bound. -/
theorem Placed.around {source : String} {d x : Token} (h : Placed source d x) (word : Keyword) :
    ∃ is i j js, items (Token.scan source.toList) = is ++ i :: j :: js ∧ i.token = d ∧
      j.token = x ∧ j.newline = false ∧
      ∀ k ∈ is ++ js, (binding d x word).bound k.token = false := by
  obtain ⟨is, i, j, js, hitems, rfl, rfl, hline⟩ := h.adjacent
  refine ⟨is, i, j, js, hitems, rfl, rfl, hline, fun k hk => ?_⟩
  have hnodup := nodup_items source.toList
  rw [hitems, List.map_append, List.map_cons, List.map_cons] at hnodup
  obtain ⟨hi, hrest⟩ := List.nodup_cons.mp (List.nodup_middle.mp hnodup)
  have hj := (List.nodup_cons.mp (List.nodup_middle.mp hrest)).1
  have hmem : k.token ∈ is.map Item.token ++ js.map Item.token := by
    rw [← List.map_append]
    exact List.mem_map_of_mem hk
  have hki : k.token ≠ i.token := by
    intro heq
    have hsub := (List.sublist_cons_self j.token (js.map Item.token)).append_left (is.map Item.token)
    exact hi (hsub.mem (heq ▸ hmem))
  have hkj : k.token ≠ j.token := by
    intro heq
    exact hj (heq ▸ hmem)
  show (decide (k.token = i.token) || decide (k.token = j.token)) = false
  rw [decide_eq_false hki, decide_eq_false hkj]
  rfl

theorem Placed.kind_dot {source : String} {d x : Token} (h : Placed source d x) (word : Keyword) :
    renamed x word d = .mark .dot := by
  have hne : d ≠ x := by
    rintro rfl
    have hname := h.name
    rw [h.dot] at hname
    cases hname
  exact (if_neg hne).trans h.dot

theorem renamed_self (x : Token) (word : Keyword) : renamed x word x = .keyword word :=
  if_pos rfl

theorem binding_dot (d x : Token) (word : Keyword) : (binding d x word).bound d = true := by
  show (decide (d = d) || _) = true
  rw [decide_eq_true rfl, Bool.true_or]

theorem Placed.intact {source : String} {d x : Token} (h : Placed source d x) {word : Keyword}
    (hread : verdicts ((items (Token.scan source.toList)).map (binding d x word).item) =
      verdicts (items (Token.scan source.toList))) :
    (binding d x word).Intact (items (Token.scan source.toList)) := by
  obtain ⟨is, i, j, js, hitems, rfl, rfl, hline, hothers⟩ := h.around word
  rw [hitems] at hread ⊢
  have hname : ((binding i.token j.token word).item j).kind.isName = true := by
    show (renamed j.token word j.token).isName = true
    rw [renamed_self]
    rfl
  exact Recast.intact_around hothers (binding_dot _ _ word) h.dot (h.kind_dot word) h.name hname
    hline hread

theorem IsMember.mem_scan {source : String} {x : Token} (h : IsMember source x) :
    x ∈ Token.scan source.toList := by
  obtain ⟨-, i, hi, rfl, -⟩ := h
  have htoken := List.mem_map_of_mem (f := Item.token) hi
  rw [items_tokens] at htoken
  exact (List.mem_filter.mp htoken).1

theorem Placed.items_replaceBy {source : String} {d x : Token} (h : Placed source d x)
    (hmem : x ∈ Token.scan source.toList) {word : Keyword}
    (hbreaks : (items (Token.scan (replaceBy source x word).toList)).map Item.breaks =
      (items (Token.scan source.toList)).map Item.breaks) :
    (items (Token.scan (replaceBy source x word).toList)).map Recast.plain.item =
      (items (Token.scan source.toList)).map (binding d x word).item :=
  Recast.map_item_eq (sights_replaceBy hmem h.name word) hbreaks

theorem Placed.skeleton {source : String} {d x : Token} (h : Placed source d x)
    (hmem : x ∈ Token.scan source.toList) {word : Keyword}
    (hbreaks : (items (Token.scan (replaceBy source x word).toList)).map Item.breaks =
      (items (Token.scan source.toList)).map Item.breaks)
    (hintact : (binding d x word).Intact (items (Token.scan source.toList))) :
    (parse (replaceBy source x word)).skeleton = (parse source).bare.recast (renamed x word) := by
  have hskeleton := Recast.recast_parseChars hintact (h.spares word)
  rw [← h.items_replaceBy hmem hbreaks] at hskeleton
  exact (Recast.skeleton_parseChars _).trans hskeleton.symm

/-- Where line breaks and brackets are read as before, a reserved word in the place of a member's
name changes the kind of its token and nothing else in the tree. -/
theorem skeleton_replaceBy {source : String} {x : Token} (hx : IsMember source x) {word : Keyword}
    (hread : readings (replaceBy source x word) = readings source) :
    (parse (replaceBy source x word)).skeleton = (parse source).bare.recast (renamed x word) := by
  obtain ⟨d, hplaced⟩ := hx.placed
  obtain ⟨hbreaks, hverdicts⟩ := Prod.mk.inj hread
  apply hplaced.skeleton hx.mem_scan hbreaks
  apply hplaced.intact
  rw [← hplaced.items_replaceBy hx.mem_scan hbreaks, Recast.verdicts_plain]
  exact hverdicts

theorem skeleton_replaceBy_same_line :
    IsMember "p := a.b" ⟨.identifier, ['b'], 7⟩ ∧
      readings (replaceBy "p := a.b" ⟨.identifier, ['b'], 7⟩ .someKw) = readings "p := a.b" ∧
      (parse (replaceBy "p := a.b" ⟨.identifier, ['b'], 7⟩ .someKw)).skeleton =
        (parse "p := a.b").bare.recast (renamed ⟨.identifier, ['b'], 7⟩ .someKw) :=
  have hx : IsMember "p := a.b" ⟨.identifier, ['b'], 7⟩ :=
    isMember_of_walk (d := ⟨.mark .dot, ['.'], 6⟩) 7
      [.leaf .identifier ⟨.identifier, ['a'], 5⟩] [] (by decide +kernel) rfl (by decide +kernel)
  have hread : readings (replaceBy "p := a.b" ⟨.identifier, ['b'], 7⟩ .someKw) =
      readings "p := a.b" := by
    unfold readings replaceBy
    rw [String.toList_ofList]
    decide +kernel
  ⟨hx, hread, skeleton_replaceBy hx hread⟩

/-- In braces a reserved word of statements is taken for one, even as the name of a member. -/
theorem skeleton_replaceBy_in_braces :
    ¬ ∀ (source : String) (x : Token) (word : Keyword), IsMember source x →
      (parse (replaceBy source x word)).skeleton = (parse source).bare.recast (renamed x word) := by
  intro h
  have hx : IsMember "p := \x7ba.b\x7d" ⟨.identifier, ['b'], 8⟩ :=
    isMember_of_walk (d := ⟨.mark .dot, ['.'], 7⟩) 9
      [.leaf .identifier ⟨.identifier, ['a'], 6⟩] [] (by decide +kernel) rfl (by decide +kernel)
  have hkinds := congrArg (fun t => (t.walk []).map (·.1.kind)) (h _ _ .someKw hx)
  unfold parse replaceBy at hkinds
  rw [String.toList_ofList] at hkinds
  revert hkinds
  decide +kernel

end PolicyEditor.Grammar
