import PolicyEditor.Proofs.Grammar.Concatenation
import PolicyEditor.Proofs.Grammar.ScriptRecast

/-!
Blanks and comments have no say in the structure of a tree but for the line breaks in them: texts
with tokens of the same kinds and with line breaks before the same tokens have trees of one
structure.
-/

namespace PolicyEditor.Grammar

def Item.sight (i : Item) : Token.Kind × Bool :=
  (i.kind, i.newline)

/-- What the grammar sees of a text. -/
def sights (source : String) : List (Token.Kind × Bool) :=
  (items (Token.scan source.toList)).map Item.sight

def breaksAfter : (last : Option Token.Kind) → List (Token.Kind × Bool) → List Bool
  | _, [] => []
  | last, (k, newline) :: rest => (newline && !last.any continues) :: breaksAfter (some k) rest

theorem breaks_itemsAfter (last : Option Token.Kind) (newline : Bool) (ts : List Token) :
    (itemsAfter last newline ts).map Item.breaks =
      breaksAfter last ((itemsAfter last newline ts).map Item.sight) := by
  induction ts generalizing last newline with
  | nil => rfl
  | cons t ts ih =>
    rw [itemsAfter]
    split
    · exact ih last _
    · rw [List.map_cons, List.map_cons, breaksAfter, ih]
      rfl

theorem breaks_items (source : String) :
    (items (Token.scan source.toList)).map Item.breaks = breaksAfter none (sights source) :=
  breaks_itemsAfter none true _

namespace Recast

variable {φ : Recast}

def plain : Recast where
  kind := Token.kind
  bound _ := false
  kind_eq _ _ := rfl

theorem map_item_eq {ψ : Recast} {is js : List Item}
    (hkinds : is.map (fun i => (φ.kind i.token, i.newline)) =
      js.map fun j => (ψ.kind j.token, j.newline))
    (hbreaks : is.map Item.breaks = js.map Item.breaks) :
    is.map φ.item = js.map ψ.item := by
  have hzip := congrArg₂ List.zip hkinds hbreaks
  rw [List.zip_map', List.zip_map'] at hzip
  let build (q : (Token.Kind × Bool) × Bool) : Item := ⟨q.1.1.blank, q.1.2, q.2⟩
  have hbuild := congrArg (List.map build) hzip
  rwa [List.map_map, List.map_map] at hbuild

theorem run_cons {i : Item} (hi : (φ.item i).kind = i.kind) {is js : List Item}
    (h : ∀ b : BraceScan, b.run is = b.run js) (b : BraceScan) :
    b.run (φ.item i :: is) = b.run (i :: js) := by
  have hnote : b.note (φ.item i) = b.note i := by
    unfold BraceScan.note
    rw [hi, newline_item]
  have hnest : ∀ c : BraceScan, c.nest (φ.item i) = c.nest i := by
    intro c
    unfold BraceScan.nest
    rw [hi]
  simp only [BraceScan.run, hi, hnote, hnest, h]

/-- Items that keep their kinds come to the same in braces. -/
theorem run_map {ts : List Item} (h : ∀ i ∈ ts, (φ.item i).kind = i.kind) (b : BraceScan) :
    b.run (ts.map φ.item) = b.run ts := by
  induction ts generalizing b with
  | nil => rfl
  | cons i rest ih =>
    obtain ⟨hi, hrest⟩ := List.forall_mem_cons.mp h
    exact run_cons hi (ih hrest) b

theorem run_plain (b : BraceScan) (ts : List Item) : b.run (ts.map plain.item) = b.run ts :=
  run_map (fun _ _ => rfl) b

theorem intact_of_unbound {ts : List Item} (h : ∀ i ∈ ts, φ.bound i.token = false) :
    φ.Intact ts := by
  induction ts with
  | nil => exact .nil
  | cons i rest ih =>
    obtain ⟨hi, hrest⟩ := List.forall_mem_cons.mp h
    have hkinds : ∀ k ∈ rest, (φ.item k).kind = k.kind := fun k hk =>
      kind_item_of_unbound (hrest k hk)
    exact .cons hi (fun _ => run_map hkinds {}) (ih hrest)

theorem intact_plain (ts : List Item) : plain.Intact ts :=
  intact_of_unbound fun _ _ => rfl

theorem spares_plain (cs : List Tree) : plain.Spares cs :=
  Tree.sparesAll_of_none (fun _ => rfl) cs

/-! ### Whole texts -/

theorem recast_dressScript (length : Nat) {trivia : List Token}
    (h : ∀ u ∈ trivia, u.isTrivia = true) (cs : List Tree) :
    (Tree.dressScript length trivia cs).bare.recast φ.kind =
      .node .script 0 0 (Tree.bareList (cs.map φ.tree)) := by
  rw [Tree.bare_dressScript length h, Tree.recast, ← Tree.bareList_recastAll,
    Tree.recastAll_eq_map]
  rfl

/-- The structure of a policy is told from its recast items. -/
theorem recast_parseChars {source : List Char} (h : φ.Intact (items (Token.scan source)))
    (hspares : φ.Spares (script source.length (items (Token.scan source)))) :
    (parseChars source).bare.recast φ.kind =
      .node .script 0 0 (Tree.bareList (script 0 ((items (Token.scan source)).map φ.item))) := by
  have htrees := Rules.declarations_recast (Rules.upTo_respected φ _) _ _ h hspares
  rw [parseChars_eq, recast_dressScript _ (fun u hu => (List.mem_filter.mp hu).2), script, script,
    ← htrees, List.length_map]
  rfl

def lone (length : Nat) (ts : List Item) : List Tree :=
  let s : Scope := { lines := false, bars := false, eof := length }
  let p := (Rules.upTo (ts.length + 1)).expr s assignLevel ts
  p.1 :: p.2.map fun i => misplaced s [i]

theorem parseExpressionChars_eq (source : List Char) :
    parseExpressionChars source =
      Tree.dressScript source.length ((Token.scan source).filter Token.isTrivia)
        (lone source.length (items (Token.scan source))) := rfl

theorem lone_recast (length : Nat) (ts : List Item) :
    lone 0 (ts.map plain.item) = (lone length ts).map plain.tree := by
  let s : Scope := { lines := false, bars := false, eof := length }
  obtain ⟨hnode, -⟩ := (Rules.upTo_respected plain (ts.length + 1)).expr s assignLevel ts
    (intact_plain ts) (spares_plain _)
  have hwrong : ∀ i : Item, misplaced (scope s) [plain.item i] = plain.tree (misplaced s [i]) := by
    intro i
    have hunbound : ∀ k ∈ [i], plain.bound k.token = false := fun _ _ => rfl
    exact misplaced_recast s hunbound
  unfold lone
  rw [List.length_map]
  show ((Rules.upTo (ts.length + 1)).expr (scope s) assignLevel (ts.map plain.item)).1 ::
    (((Rules.upTo (ts.length + 1)).expr (scope s) assignLevel (ts.map plain.item)).2.map
      fun i => misplaced (scope s) [i]) = _
  rw [hnode, parsed, List.map_cons, List.map_map, List.map_map]
  exact congrArg (List.cons _) (List.map_congr_left fun i _ => hwrong i)

theorem skeleton_parseExpressionChars (source : List Char) :
    (parseExpressionChars source).skeleton = .node .script 0 0
      (Tree.bareList (lone 0 ((items (Token.scan source)).map plain.item))) := by
  rw [lone_recast source.length, parseExpressionChars_eq]
  show Tree.recast plain.kind _ = _
  exact recast_dressScript _ (fun u hu => (List.mem_filter.mp hu).2) _

theorem skeleton_parseChars (source : List Char) :
    (parseChars source).skeleton = .node .script 0 0
      (Tree.bareList (script 0 ((items (Token.scan source)).map plain.item))) :=
  recast_parseChars (intact_plain _) (spares_plain _)

end Recast

theorem items_plain_eq {a b : String} (h : sights a = sights b) :
    (items (Token.scan a.toList)).map Recast.plain.item =
      (items (Token.scan b.toList)).map Recast.plain.item := by
  refine Recast.map_item_eq h ?_
  rw [breaks_items, breaks_items, h]

/-- Texts in which the grammar sees the same have trees of one structure. -/
theorem skeleton_eq_of_sights {a b : String} (h : sights a = sights b) :
    (parse a).skeleton = (parse b).skeleton ∧
      (parseExpression a).skeleton = (parseExpression b).skeleton := by
  have hitems := items_plain_eq h
  unfold parse parseExpression
  rw [Recast.skeleton_parseChars, Recast.skeleton_parseChars, Recast.skeleton_parseExpressionChars,
    Recast.skeleton_parseExpressionChars, hitems]
  exact ⟨rfl, rfl⟩

theorem skeleton_eq_of_sights_comment :
    sights "p := 1\nq := p" = sights "p:=1 # one\n  q :=p" ∧
      ((parse "p := 1\nq := p").skeleton = (parse "p:=1 # one\n  q :=p").skeleton ∧
        (parseExpression "p := 1\nq := p").skeleton =
          (parseExpression "p:=1 # one\n  q :=p").skeleton) :=
  have h : sights "p := 1\nq := p" = sights "p:=1 # one\n  q :=p" := by decide +kernel
  ⟨h, skeleton_eq_of_sights h⟩

end PolicyEditor.Grammar
