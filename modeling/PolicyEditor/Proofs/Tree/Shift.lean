import PolicyEditor.Proofs.Tree.Clean
import PolicyEditor.Proofs.Tree.Dressing

/-!
Trees further to the right. A tree whose text stands behind another text is the tree of its own text
with every offset moved; blanks and comments go into it at the same places.
-/

namespace PolicyEditor.Token

theorem shift_zero (t : Token) : t.shift 0 = t := by
  rw [shift, Nat.zero_add]

end PolicyEditor.Token

namespace PolicyEditor.Tree

mutual

def shift (n : Nat) : Tree → Tree
  | .leaf k t => .leaf k (t.shift n)
  | .node k a b cs => .node k (n + a) (n + b) (shiftAll n cs)

def shiftAll (n : Nat) : List Tree → List Tree
  | [] => []
  | c :: cs => shift n c :: shiftAll n cs

end

variable (n : Nat)

theorem shiftAll_eq_map (cs : List Tree) : shiftAll n cs = cs.map (shift n) := by
  induction cs with
  | nil => rfl
  | cons c cs ih => rw [shiftAll, ih, List.map_cons]

theorem start_shift (t : Tree) : (t.shift n).start = n + t.start := by
  cases t <;> rfl

theorem stop_shift (t : Tree) : (t.shift n).stop = n + t.stop := by
  cases t with
  | leaf k t => exact Nat.add_assoc n t.start t.chars.length
  | node => rfl

theorem shift_enclose (k : NodeKind) (here : Nat) (cs : List Tree) :
    (enclose k here cs).shift n = enclose k (n + here) (cs.map (shift n)) := by
  have hends : ∀ (o : Option Tree) (f : Tree → Nat), (∀ t, f (t.shift n) = n + f t) →
      ((o.map (shift n)).map f).getD (n + here) = n + (o.map f).getD here := by
    intro o f hf
    cases o with
    | none => rfl
    | some t => exact hf t
  rw [enclose, enclose, shift, shiftAll_eq_map, List.head?_map, List.getLast?_map,
    hends _ _ (start_shift n), hends _ _ (stop_shift n)]

mutual

theorem shift_zero : ∀ t : Tree, t.shift 0 = t
  | .leaf k t => congrArg (Tree.leaf k) t.shift_zero
  | .node k a b cs => by rw [shift, Nat.zero_add, Nat.zero_add, shiftAll_zero cs]

theorem shiftAll_zero : ∀ cs : List Tree, shiftAll 0 cs = cs
  | [] => rfl
  | c :: cs => by rw [shiftAll, shift_zero c, shiftAll_zero cs]

end

theorem map_shift_zero (cs : List Tree) : cs.map (shift 0) = cs := by
  rw [← shiftAll_eq_map, shiftAll_zero]

/-! ### Dressing -/

theorem before_shift (pending : List Token) (offset : Nat) :
    before (pending.map (Token.shift n)) (n + offset) =
      (before pending offset).map (Token.shift n) := by
  rw [before, List.takeWhile_map]
  congr 2
  funext t
  simp only [Function.comp, Token.shift, Nat.add_lt_add_iff_left]

theorem notBefore_shift (pending : List Token) (offset : Nat) :
    notBefore (pending.map (Token.shift n)) (n + offset) =
      (notBefore pending offset).map (Token.shift n) := by
  rw [notBefore, List.dropWhile_map]
  congr 2
  funext t
  simp only [Function.comp, Token.shift, Nat.add_lt_add_iff_left]

mutual

theorem dress_shift : ∀ (pending : List Token) (t : Tree),
    dress (pending.map (Token.shift n)) (t.shift n) =
      ((dress pending t).1.shift n, (dress pending t).2.map (Token.shift n))
  | _, .leaf _ _ => rfl
  | pending, .node k a b cs => by
    rw [shift, dress, shiftAll_eq_map, dressList_shift pending cs, dress, shift, shiftAll_eq_map]

theorem dressList_shift : ∀ (pending : List Token) (cs : List Tree),
    dressList (pending.map (Token.shift n)) (cs.map (shift n)) =
      ((dressList pending cs).1.map (shift n), (dressList pending cs).2.map (Token.shift n))
  | _, [] => rfl
  | pending, c :: cs => by
    simp only [List.map_cons, dressList, start_shift, before_shift, notBefore_shift,
      dress_shift (notBefore pending c.start) c,
      dressList_shift (dress (notBefore pending c.start) c).2 cs, List.map_append, List.map_map]
    rfl

end

/-! ### Two texts side by side -/

theorem before_append {pending later : List Token} {offset : Nat}
    (h : ∀ t ∈ later, offset ≤ t.start) :
    before (pending ++ later) offset = before pending offset := by
  induction pending with
  | nil => exact before_eq_nil h
  | cons t pending ih =>
    rw [before] at ih
    rw [List.cons_append, before, before, List.takeWhile_cons, List.takeWhile_cons, ih, before]

theorem notBefore_append {pending later : List Token} {offset : Nat}
    (h : ∀ t ∈ later, offset ≤ t.start) :
    notBefore (pending ++ later) offset = notBefore pending offset ++ later := by
  have hall := before_append_notBefore (pending ++ later) offset
  rw [before_append h] at hall
  have hboth : before pending offset ++ notBefore (pending ++ later) offset =
      before pending offset ++ (notBefore pending offset ++ later) := by
    rw [hall, ← List.append_assoc, before_append_notBefore]
  exact List.append_cancel_left hboth

/-- Blanks and comments behind a text stay behind its trees. -/
theorem Reads.dressList_append {eof bound : Nat} {ts rest : List Token} {cs : List Tree}
    (h : Reads eof ts cs rest) (hts : ∀ t ∈ ts, t.start ≤ bound) (heof : eof ≤ bound)
    {later : List Token} (hlater : ∀ t ∈ later, bound ≤ t.start) (pending : List Token) :
    dressList (pending ++ later) cs =
      ((dressList pending cs).1, (dressList pending cs).2 ++ later) := by
  have hafter : ∀ offset, offset ≤ bound → ∀ t ∈ later, offset ≤ t.start :=
    fun offset hle t ht => Nat.le_trans hle (hlater t ht)
  -- On what the trees read: none of it starts behind the text, so no later token goes before it.
  induction h generalizing pending with
  | nil => rfl
  | leaf k t _ ih =>
    have hlow := hafter t.start (hts t List.mem_cons_self)
    simp only [dressList, dress, start, before_append hlow, notBefore_append hlow,
      ih fun u hu => hts u (List.mem_cons_of_mem t hu)]
  | @node k ts mid rest cs ds inner outer ihInner ihOuter =>
    have hstart : (enclose k (startOf eof mid) cs).start = startOf eof ts := inner.start_eq
    have hlow := hafter (startOf eof ts) (by
      cases ts with
      | nil => exact heof
      | cons t ts => exact hts t List.mem_cons_self)
    have hmid : ∀ t ∈ mid, t.start ≤ bound := fun t ht =>
      hts t (inner.tokens_append_rest ▸ List.mem_append_right _ ht)
    simp only [dressList, hstart, before_append hlow, notBefore_append hlow]
    simp only [enclose, dress, ihInner hts, ihOuter hmid]

/-- Blanks and comments in front of a text stand in front of its first tree. -/
theorem dressList_append_left {pending : List Token} {c : Tree}
    (h : ∀ t ∈ pending, t.start < c.start) (later : List Token) (cs : List Tree) :
    dressList (pending ++ later) (c :: cs) =
      (pending.map ofToken ++ (dressList later (c :: cs)).1, (dressList later (c :: cs)).2) := by
  have hall : ∀ t ∈ pending, decide (t.start < c.start) = true := fun t ht =>
    decide_eq_true (h t ht)
  simp only [dressList, before, notBefore, List.takeWhile_append_of_pos hall,
    List.dropWhile_append_of_pos hall, List.map_append, List.append_assoc]

theorem dressList_append (pending : List Token) (cs ds : List Tree) :
    dressList pending (cs ++ ds) =
      ((dressList pending cs).1 ++ (dressList (dressList pending cs).2 ds).1,
        (dressList (dressList pending cs).2 ds).2) := by
  induction cs generalizing pending with
  | nil => rfl
  | cons c cs ih => simp only [List.cons_append, dressList, ih, List.append_assoc]

/-- The children of the root over a text and another one behind it. -/
theorem children_dressScript_append {la : Nat} (lb : Nat) {ts ta : List Token} (tb : List Token)
    {cs ds : List Tree} (hcs : Reads la ts cs []) (hts : ∀ t ∈ ts, t.start ≤ la)
    (hta : ∀ t ∈ ta, t.isTrivia = true ∧ t.start < la) (hds : ds ≠ []) :
    (dressScript (la + lb) (ta ++ tb.map (Token.shift la)) (cs ++ ds.map (shift la))).children =
      (dressScript la ta cs).children ++ (dressScript lb tb ds).children.map (shift la) := by
  obtain ⟨d, ds, rfl⟩ := List.exists_cons_of_ne_nil hds
  have hbehind : ∀ t ∈ tb.map (Token.shift la), la ≤ t.start := by
    intro t ht
    obtain ⟨u, -, rfl⟩ := List.mem_map.mp ht
    exact Nat.le_add_right la u.start
  -- What is left over of the first text's blanks and comments stands before the second text.
  have hleft : ∀ t ∈ (dressList ta cs).2, t.start < (d.shift la).start := by
    intro t ht
    have hmem := (bareList_dressList ta cs fun u hu => (hta u hu).1).2 t ht
    rw [start_shift]
    exact Nat.lt_add_right _ (hta t hmem).2
  have hfirst := hcs.dressList_append hts (Nat.le_refl la) hbehind ta
  have hsecond := dressList_append_left hleft (tb.map (Token.shift la)) (ds.map (shift la))
  rw [← List.map_cons, dressList_shift] at hsecond
  simp only [dressScript, children, dressList_append, hfirst, hsecond, List.map_append,
    List.map_map, List.append_assoc]
  rfl

end PolicyEditor.Tree
