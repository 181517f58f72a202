import PolicyEditor.Proofs.Grammar.MemberNames

/-!
Reserved words that do no harm as names of members. A word that marks no statement is not seen in
braces. If it ends operands as an identifier does and no line goes on after it, then it may stand
before a line break too; any other word may not, since then the line break is read in another way.
-/

namespace PolicyEditor.Grammar

/-! ### Line breaks -/

/-- The break after a token depends on it only if one stands there. -/
theorem breaksAfter_swap {k l : Token.Kind} {newline : Bool} {rest : List (Token.Kind × Bool)}
    (h : continues k = continues l ∨ ∀ p ∈ rest.head?, p.2 = false)
    (front : List (Token.Kind × Bool)) (last : Option Token.Kind) :
    breaksAfter last (front ++ (k, newline) :: rest) =
      breaksAfter last (front ++ (l, newline) :: rest) := by
  induction front generalizing last with
  | nil =>
    simp only [List.nil_append, breaksAfter]
    congr 1
    cases rest with
    | nil => rfl
    | cons p rest =>
      simp only [breaksAfter]
      rcases h with h | h
      · rw [Option.any_some, Option.any_some, h]
      · rw [h p rfl, Bool.false_and, Bool.false_and]
  | cons p front ih => exact congrArg (_ :: ·) (ih (some p.1))

namespace Recast

variable {φ : Recast}

/-! ### Braces -/

/-- Outside nested brackets the last token seen says nothing but whether it can end an operand
before a line break. -/
theorem run_last {b c : BraceScan} (hb : b.depth = 0) (hc : c.depth = 0) (hcolon : b.colon = c.colon)
    (hstatement : b.statement = c.statement) (hcontent : b.content = c.content) {ts : List Item}
    (h : b.last.any endsOperand = c.last.any endsOperand ∨ ∀ k ∈ ts.head?, k.newline = false) :
    b.run ts = c.run ts := by
  have hverdict : b.verdict = c.verdict := by
    unfold BraceScan.verdict
    rw [hcolon, hstatement, hcontent]
  cases ts with
  | nil => exact hverdict
  | cons k rest =>
    have hnote : b.note k = c.note k := by
      unfold BraceScan.note
      rw [hb, hc, hcolon, hstatement]
      rcases h with h | h
      · rw [h]
      · rw [h k rfl, Bool.false_and, Bool.false_and, Bool.false_and, Bool.false_and]
    simp only [BraceScan.run, if_pos hb, if_pos hc, hverdict, hcolon, hnote]

theorem run_name {j : Item} (hj : j.kind.isName = true) (b : BraceScan) (ts : List Item) :
    b.run (j :: ts) = if b.depth = 0 then (b.note j).run ts else b.run ts := by
  have hplain := isPlain_of_isName hj
  simp only [isPlain, Bool.and_eq_true, Bool.not_eq_true'] at hplain
  have hpipe : j.kind ≠ .operator .pipe := by
    intro hpipe
    rw [hpipe] at hj
    cases hj
  simp only [BraceScan.run, BraceScan.nest, hplain.1.1, hplain.1.2, if_neg hpipe,
    Bool.false_eq_true, if_false]

theorem note_name {j : Item} (hj : j.kind.isName = true) (hline : j.newline = false)
    (b : BraceScan) : b.note j =
      { b with statement := b.statement || marksStatement j.kind, content := true,
               last := some j.kind } := by
  have hcolon : (j.kind == .mark .colon) = false := by
    rw [beq_eq_false_iff_ne]
    intro hcolon
    rw [hcolon] at hj
    cases hj
  unfold BraceScan.note
  rw [hcolon, hline, Bool.or_false, Bool.false_and, Bool.false_and, Bool.or_false]

/-- A name for another one, of which neither marks a statement. -/
structure Harmless (φ : Recast) (j : Item) (js : List Item) : Prop where
  name : j.kind.isName = true
  name' : (φ.item j).kind.isName = true
  line : j.newline = false
  marks : marksStatement (φ.item j).kind = marksStatement j.kind
  ends : endsOperand (φ.item j).kind = endsOperand j.kind ∨ ∀ k ∈ js.head?, k.newline = false

theorem Harmless.run {j : Item} {js : List Item} (h : φ.Harmless j js)
    (hjs : ∀ k ∈ js, (φ.item k).kind = k.kind) (b : BraceScan) :
    b.run (φ.item j :: js.map φ.item) = b.run (j :: js) := by
  rw [run_name h.name', run_name h.name, run_map hjs, run_map hjs, note_name h.name h.line,
    note_name h.name' h.line]
  split
  case isTrue hdepth =>
    apply run_last
    · exact hdepth
    · exact hdepth
    · rfl
    · exact congrArg (b.statement || ·) h.marks
    · rfl
    · exact h.ends
  case isFalse => rfl

theorem Harmless.run_append {is js : List Item} {i j : Item} (h : φ.Harmless j js)
    (hothers : ∀ k ∈ is ++ js, φ.bound k.token = false) (hi : (φ.item i).kind = i.kind)
    (b : BraceScan) :
    b.run ((is ++ i :: j :: js).map φ.item) = b.run (is ++ i :: j :: js) := by
  induction is generalizing b with
  | nil => exact run_cons hi (h.run fun k hk => kind_item_of_unbound (hothers k hk)) b
  | cons k is ih =>
    obtain ⟨hk, hrest⟩ := List.forall_mem_cons.mp hothers
    exact run_cons (kind_item_of_unbound hk) (ih hrest) b

/-- Items that stay what they are, whatever the brackets around the name. -/
theorem Harmless.intact {is js : List Item} {i j : Item} (h : φ.Harmless j js)
    (hothers : ∀ k ∈ is ++ js, φ.bound k.token = false) (hi : φ.bound i.token = true)
    (hdot : i.kind = .mark .dot) (hdot' : (φ.item i).kind = .mark .dot) :
    φ.Intact (is ++ i :: j :: js) := by
  induction is with
  | nil => exact .member hi hdot hdot' h.name h.name' h.line (intact_of_unbound hothers)
  | cons k is ih =>
    obtain ⟨hk, hrest⟩ := List.forall_mem_cons.mp hothers
    exact .cons hk (fun _ => h.run_append hrest (hdot'.trans hdot.symm) {}) (ih hrest)

end Recast

/-- No line begins with the item after the token. -/
def GoesOn (source : String) (x : Token) : Prop :=
  ∀ is i js, items (Token.scan source.toList) = is ++ i :: js → i.token = x →
    ∀ k ∈ js.head?, k.newline = false

/-- A reserved word that marks no statement may stand for any name of a member if the line goes on,
and `true`, `false` and `null` may everywhere. -/
theorem skeleton_replaceBy_harmless {source : String} {x : Token} (hx : IsMember source x)
    (hname : x.kind = .identifier) {word : Keyword}
    (hmarks : marksStatement (.keyword word) = false)
    (hnext : Token.Kind.isLiteral (.keyword word) = true ∨ GoesOn source x) :
    (parse (replaceBy source x word)).skeleton = (parse source).bare.recast (renamed x word) := by
  obtain ⟨d, hplaced⟩ := hx.placed
  obtain ⟨is, i, j, js, hitems, rfl, rfl, hline, hothers⟩ := hplaced.around word
  have hafter : Token.Kind.isLiteral (.keyword word) = true ∨
      ∀ k ∈ js.head?, k.newline = false := by
    refine hnext.imp_right fun hgoes => ?_
    exact hgoes (is ++ [i]) j js (by rw [hitems, List.append_assoc]; rfl) rfl
  have hkind : ((binding i.token j.token word).item j).kind = .keyword word :=
    renamed_self j.token word
  have hharmless : (binding i.token j.token word).Harmless j js := by
    refine ⟨hplaced.name, by rw [hkind]; rfl, hline, ?_, hafter.imp_left fun hliteral => ?_⟩
    · rw [hkind, hmarks, Item.kind, hname]
      rfl
    · rw [hkind, Item.kind, hname, endsOperand, hliteral]
      rfl
  have hintact := hharmless.intact hothers (binding_dot _ _ word) hplaced.dot
    (hplaced.kind_dot word)
  rw [← hitems] at hintact
  refine hplaced.skeleton hx.mem_scan ?_ hintact
  have hseen : ∀ ks : List Item, (∀ k ∈ ks, (binding i.token j.token word).bound k.token = false) →
      ks.map (fun k => (renamed j.token word k.token, k.newline)) = ks.map Item.sight := by
    intro ks hks
    exact List.map_congr_left fun k hk =>
      Prod.ext ((binding i.token j.token word).kind_eq _ (hks k hk)) rfl
  obtain ⟨his, hjs⟩ := List.forall_mem_append.mp hothers
  have hnew : sights (replaceBy source j.token word) =
      (is.map Item.sight ++ [(.mark .dot, i.newline)]) ++
        (.keyword word, false) :: js.map Item.sight := by
    rw [sights_replaceBy hx.mem_scan hplaced.name word, hitems, List.map_append, List.map_cons,
      List.map_cons, hseen is his, hseen js hjs, hplaced.kind_dot word, renamed_self, hline,
      List.append_assoc]
    rfl
  have hold : sights source =
      (is.map Item.sight ++ [(.mark .dot, i.newline)]) ++
        (.identifier, false) :: js.map Item.sight := by
    have hi : i.sight = (.mark .dot, i.newline) := Prod.ext hplaced.dot rfl
    have hj : j.sight = (.identifier, false) := Prod.ext hname hline
    rw [sights, hitems, List.map_append, List.map_cons, List.map_cons, hi, hj, List.append_assoc]
    rfl
  rw [breaks_items, breaks_items, hnew, hold]
  refine breaksAfter_swap (hafter.imp (fun hliteral => ?_) fun hgoes => ?_) _ none
  · cases word <;> first | rfl | cases hliteral
  · rw [List.head?_map]
    rintro p hp
    obtain ⟨k, hk, rfl⟩ := Option.map_eq_some_iff.mp hp
    exact hgoes k hk

end PolicyEditor.Grammar
