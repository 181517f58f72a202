import PolicyEditor.Proofs.Grammar.Concatenation
import PolicyEditor.Proofs.Token.Separation

/-!
Items of texts with a line break or a semicolon between. Blanks only tell whether a line break
stands before the next item, so it does not matter that those of both texts run together.
-/

namespace PolicyEditor.Grammar

open PolicyEditor.Text (isBlank)
open PolicyEditor.Token (runLength scanFrom Separator Splits)

/-! ### Blanks -/

theorem itemsAfter_trivia {t : Token} (h : t.isTrivia = true) (last : Option Token.Kind)
    (newline : Bool) (ts : List Token) : itemsAfter last newline (t :: ts) =
      itemsAfter last (newline || t.chars.contains '\n') ts :=
  if_pos h

theorem itemsAfter_token {t : Token} (h : t.isTrivia = false) (last : Option Token.Kind)
    (newline : Bool) (ts : List Token) : itemsAfter last newline (t :: ts) =
      ⟨t, newline, newline && !last.any continues⟩ :: itemsAfter (some t.kind) false ts :=
  if_neg (ne_true_of_eq_false h)

/-- The blanks that a text begins with. -/
theorem itemsAfter_skip (last : Option Token.Kind) (newline : Bool) (pos : Nat) (s : List Char) :
    itemsAfter last newline (scanFrom 0 pos s) =
      itemsAfter last (newline || (s.take (runLength isBlank s)).contains '\n')
        (scanFrom 0 (pos + runLength isBlank s) (s.drop (runLength isBlank s))) := by
  cases s with
  | nil => simp [scanFrom, itemsAfter]
  | cons c rest =>
    by_cases hc : isBlank c = true
    · have hreach : Token.reach c rest = (.whitespace, runLength isBlank rest) := by
        simp only [Token.reach, hc, if_true]
      have hlength : (c :: rest.take (runLength isBlank rest)).length =
          runLength isBlank rest + 1 := by
        rw [List.length_cons, List.length_take, Nat.min_eq_left (Token.runLength_le isBlank rest)]
      rw [Token.scanFrom_cons, hreach, Token.runLength_cons hc, itemsAfter_trivia rfl, hlength]
      rfl
    · have hnone : runLength isBlank (c :: rest) = 0 := by
        rw [runLength, List.takeWhile_cons_of_neg hc, List.length_nil]
      rw [hnone]
      simp

theorem itemsAfter_blanks (last : Option Token.Kind) (newline : Bool) (pos : Nat) {w : List Char}
    (hw : ∀ c ∈ w, isBlank c = true) (s : List Char) :
    itemsAfter last newline (scanFrom 0 pos (w ++ s)) =
      itemsAfter last (newline || w.contains '\n') (scanFrom 0 (pos + w.length) s) := by
  rw [itemsAfter_skip, itemsAfter_skip last (newline || w.contains '\n'), Token.runLength_append hw,
    List.take_length_add_append, List.drop_length_add_append]
  simp only [List.contains_append, Bool.or_assoc, Nat.add_assoc]

/-! ### A text before a separator -/

def lastKind (last : Option Token.Kind) : List Token → Option Token.Kind
  | [] => last
  | t :: ts => lastKind (if t.isTrivia then last else some t.kind) ts

theorem lastKind_of_trivia {last : Option Token.Kind} {ts : List Token}
    (h : ∀ t ∈ ts, t.isTrivia = true) : lastKind last ts = last := by
  induction ts with
  | nil => rfl
  | cons t ts ih =>
    obtain ⟨ht, hts⟩ := List.forall_mem_cons.mp h
    rw [lastKind, if_pos ht, ih hts]

theorem lastKind_append (last : Option Token.Kind) (ts us : List Token) :
    lastKind last (ts ++ us) = lastKind (lastKind last ts) us := by
  induction ts generalizing last with
  | nil => rfl
  | cons t ts ih => exact ih _

theorem lastKind_of_tokens {ts front : List Token} {t : Token}
    (h : (ts.filter fun u => !u.isTrivia) = front ++ [t]) (last : Option Token.Kind) :
    lastKind last ts = some t.kind := by
  obtain ⟨before, others, rfl, -, hothers⟩ := List.filter_eq_append_iff.mp h
  obtain ⟨blanks, after, rfl, -, ht, hafter⟩ := List.filter_eq_cons_iff.mp hothers
  have htrivia : ∀ u ∈ after, u.isTrivia = true := by simpa using hafter
  have ht : t.isTrivia = false := by simpa using ht
  rw [lastKind_append, lastKind_append, lastKind, if_neg (ne_true_of_eq_false ht),
    lastKind_of_trivia htrivia]

/-- The items of a text that a separator follows are those of the text alone; the separator may
only belong to the blanks at its end. -/
theorem itemsAfter_before {pos : Nat} {s : List Char} {ts : List Token} (h : Splits pos s ts)
    (hvalid : ∀ t ∈ ts, t.kind ≠ .invalid) (hcomment : ∀ t ∈ ts, t.kind ≠ .comment) {c : Char}
    (hc : Separator c) (more : List Char) (last : Option Token.Kind) (newline : Bool) :
    itemsAfter last newline (scanFrom 0 pos (s ++ c :: more)) =
      itemsAfter last newline ts ++ itemsAfter (lastKind last ts) (breakAfter newline ts)
        (scanFrom 0 (pos + s.length) (c :: more)) := by
  induction h generalizing last newline with
  | nil => rfl
  | @cons k chars rest pos ts hbegins _ ih =>
    obtain ⟨hk, hvalid⟩ := List.forall_mem_cons.mp hvalid
    obtain ⟨hk', hcomment⟩ := List.forall_mem_cons.mp hcomment
    rw [List.append_assoc, List.length_append, ← Nat.add_assoc]
    by_cases htrivia : (⟨k, chars, pos⟩ : Token).isTrivia = true
    · rw [itemsAfter_blanks last newline pos (hbegins.all_blank htrivia hk'), ih hvalid hcomment,
        itemsAfter_trivia htrivia, lastKind, if_pos htrivia, breakAfter, htrivia, Bool.true_and]
    · have hplain := Bool.eq_false_iff.mpr htrivia
      rw [(hbegins.before hk hplain hc more).scanFrom_eq, itemsAfter_token hplain,
        itemsAfter_token hplain, ih hvalid hcomment, lastKind, if_neg htrivia, breakAfter, hplain,
        Bool.false_and, List.cons_append]

/-- If no item of the longer text is invalid, then no token of the text is. -/
theorem valid_before {pos : Nat} {s : List Char} {ts : List Token} (h : Splits pos s ts)
    (hcomment : ∀ t ∈ ts, t.kind ≠ .comment) {more : List Char} (hmore : '`' ∉ more)
    {last : Option Token.Kind} {newline : Bool}
    (hitems : ∀ i ∈ itemsAfter last newline (scanFrom 0 pos (s ++ '\n' :: more)),
      i.kind ≠ .invalid) : ∀ t ∈ ts, t.kind ≠ .invalid := by
  induction h generalizing last newline with
  | nil => exact nofun
  | @cons k chars rest pos ts hbegins _ ih =>
    obtain ⟨hk', hcomment⟩ := List.forall_mem_cons.mp hcomment
    rw [List.append_assoc] at hitems
    by_cases hk : k = .invalid
    · subst hk
      obtain ⟨chars', rest', heq, hinvalid⟩ := hbegins.invalid_before hmore
      rw [heq, hinvalid.scanFrom_eq, itemsAfter_token rfl] at hitems
      exact absurd rfl (hitems _ List.mem_cons_self)
    refine List.forall_mem_cons.mpr ⟨hk, ?_⟩
    by_cases htrivia : (⟨k, chars, pos⟩ : Token).isTrivia = true
    · rw [itemsAfter_blanks last newline pos (hbegins.all_blank htrivia hk')] at hitems
      exact ih hcomment hitems
    · have hplain := Bool.eq_false_iff.mpr htrivia
      rw [(hbegins.before hk hplain (.inl rfl) more).scanFrom_eq, itemsAfter_token hplain] at hitems
      exact ih hcomment fun i hi => hitems i (List.mem_cons_of_mem _ hi)

/-! ### The first item -/

/-- The items without what is known of line breaks before the first one. -/
def lineless : List Item → List Item
  | [] => []
  | i :: rest => ⟨i.token, false, false⟩ :: rest

theorem length_lineless (ts : List Item) : (lineless ts).length = ts.length := by
  cases ts <;> rfl

/-- What stands before a text decides only what the line breaks before its first item mean. -/
theorem lineless_itemsAfter (last last' : Option Token.Kind) (newline newline' : Bool)
    (ts : List Token) :
    lineless (itemsAfter last newline ts) = lineless (itemsAfter last' newline' ts) := by
  induction ts generalizing newline newline' with
  | nil => rfl
  | cons t ts ih =>
    by_cases ht : t.isTrivia = true
    · rw [itemsAfter_trivia ht, itemsAfter_trivia ht]
      exact ih _ _
    · rw [itemsAfter_token (Bool.eq_false_iff.mpr ht), itemsAfter_token (Bool.eq_false_iff.mpr ht)]
      rfl

/-- Behind a token that nothing has to follow, a line break can end a statement. -/
theorem breaks_of_head_itemsAfter {last : Option Token.Kind} (hlast : last.any continues = false)
    (ts : List Token) : ∀ i ∈ (itemsAfter last true ts).head?, i.breaks = true := by
  induction ts with
  | nil => exact nofun
  | cons t ts ih =>
    by_cases ht : t.isTrivia = true
    · rw [itemsAfter_trivia ht, Bool.true_or]
      exact ih
    · rw [itemsAfter_token (Bool.eq_false_iff.mpr ht)]
      rintro _ ⟨rfl⟩
      rw [hlast]
      rfl

theorem scanFrom_semicolon (pos : Nat) (more : List Char) :
    scanFrom 0 pos (';' :: more) = ⟨.mark .semicolon, [';'], pos⟩ :: scanFrom 0 (pos + 1) more := by
  have hreach : Token.reach ';' more = (.mark .semicolon, 0) := by
    cases more <;> rfl
  rw [Token.scanFrom_cons, hreach]
  rfl

end PolicyEditor.Grammar
