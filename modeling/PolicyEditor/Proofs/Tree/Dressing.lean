import PolicyEditor.Proofs.Tree.Reading

/-!
Dressing a bare tree. Blanks and comments go in between the tokens of the bare tree exactly where
they stood among the tokens of the text.
-/

namespace PolicyEditor.Tree

/-- Two lists of tokens as one: each token of the first stands in front of the first one of the
second that begins after it. -/
def weave (pending : List Token) : List Token → List Token
  | [] => pending
  | t :: ts => before pending t.start ++ t :: weave (notBefore pending t.start) ts

theorem before_append_notBefore (pending : List Token) (offset : Nat) :
    before pending offset ++ notBefore pending offset = pending :=
  List.takeWhile_append_dropWhile

theorem before_eq_nil {pending : List Token} {offset : Nat}
    (h : ∀ t ∈ pending, offset ≤ t.start) : before pending offset = [] := by
  cases pending with
  | nil => rfl
  | cons t ts =>
    have ht : ¬ t.start < offset := Nat.not_lt.mpr (h t List.mem_cons_self)
    simp only [before, List.takeWhile_cons, ht, decide_false, Bool.false_eq_true, if_false]

theorem notBefore_eq_self {pending : List Token} {offset : Nat}
    (h : ∀ t ∈ pending, offset ≤ t.start) : notBefore pending offset = pending := by
  have hall := before_append_notBefore pending offset
  rwa [before_eq_nil h, List.nil_append] at hall

theorem before_notBefore (pending : List Token) (offset : Nat) :
    before (notBefore pending offset) offset = [] := by
  induction pending with
  | nil => rfl
  | cons t ts ih =>
    by_cases ht : t.start < offset
    · simpa only [notBefore, List.dropWhile_cons, ht, decide_true, if_true] using ih
    · simp only [before, notBefore, List.dropWhile_cons, List.takeWhile_cons, ht, decide_false,
        Bool.false_eq_true, if_false]

theorem notBefore_notBefore (pending : List Token) (offset : Nat) :
    notBefore (notBefore pending offset) offset = notBefore pending offset := by
  have h := before_append_notBefore (notBefore pending offset) offset
  rwa [before_notBefore, List.nil_append] at h

theorem weave_split (eof : Nat) (pending ts : List Token) :
    before pending (startOf eof ts) ++ weave (notBefore pending (startOf eof ts)) ts =
      weave pending ts := by
  cases ts with
  | nil => exact before_append_notBefore pending eof
  | cons t ts =>
    simp only [startOf, weave, before_notBefore, notBefore_notBefore, List.nil_append]

/-- Trees that read tokens are dressed to read these tokens with the pending ones in between; what
is left over belongs behind them. -/
theorem Reads.tokens_dressList {eof : Nat} {ts rest : List Token} {cs : List Tree}
    (h : Reads eof ts cs rest) (pending : List Token) :
    tokens (dressList pending cs).1 ++ weave (dressList pending cs).2 rest = weave pending ts := by
  -- On the reading; what a tree leaves pending is what the next one is given.
  induction h generalizing pending with
  | nil => rfl
  | leaf k t _ ih =>
    simp only [dressList, dress, tokens_append, tokens_map_ofToken, tokens_leaf, weave,
      List.append_assoc, List.cons_append]
    rw [← ih (notBefore pending t.start)]
    rfl
  | @node k ts mid rest cs ds inner outer ihInner ihOuter =>
    -- The node begins where its first token does, so nothing pending is placed too late.
    have hstart : (enclose k (startOf eof mid) cs).start = startOf eof ts := inner.start_eq
    simp only [dressList, hstart]
    simp only [enclose, dress, tokens_append, tokens_map_ofToken, tokens_node, List.append_assoc]
    rw [ihOuter, ihInner, weave_split]

theorem weave_cons_pending {t : Token} {pending ts : List Token}
    (h : ∀ u ∈ ts, t.start < u.start) : weave (t :: pending) ts = t :: weave pending ts := by
  cases ts with
  | nil => rfl
  | cons u ts =>
    have ht : t.start < u.start := h u List.mem_cons_self
    simp only [weave, before, notBefore, List.takeWhile_cons, List.dropWhile_cons, ht, decide_true,
      if_true, List.cons_append]

theorem weave_cons_placed {t : Token} {pending ts : List Token}
    (h : ∀ u ∈ pending, t.start ≤ u.start) : weave pending (t :: ts) = t :: weave pending ts := by
  rw [weave, before_eq_nil h, notBefore_eq_self h, List.nil_append]

/-- A text's tokens are its blanks and comments woven into the others. -/
theorem weave_filter {ts : List Token} (h : ts.Pairwise fun a b => a.start < b.start) :
    weave (ts.filter Token.isTrivia) (ts.filter fun t => !t.isTrivia) = ts := by
  induction ts with
  | nil => rfl
  | cons t ts ih =>
    have hlater : ∀ u ∈ ts, t.start < u.start := fun u hu => List.rel_of_pairwise_cons h hu
    have hrest := ih h.of_cons
    -- The first token comes first, whichever of the two lists it is in.
    by_cases ht : t.isTrivia = true
    · rw [List.filter_cons_of_pos ht, List.filter_cons_of_neg (by simp [ht])]
      rw [weave_cons_pending fun u hu => hlater u (List.mem_filter.mp hu).1, hrest]
    · rw [List.filter_cons_of_neg ht, List.filter_cons_of_pos (by simp [ht])]
      rw [weave_cons_placed fun u hu => Nat.le_of_lt (hlater u (List.mem_filter.mp hu).1), hrest]

end PolicyEditor.Tree
