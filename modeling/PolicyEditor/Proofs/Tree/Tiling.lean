import PolicyEditor.Proofs.Token.Concatenation
import PolicyEditor.Proofs.Tree.Dressing
import PolicyEditor.Proofs.Tree.Formed
import PolicyEditor.Proofs.Tree.Shift

/-!
Trees without gaps. Where the tokens of a text stand one right after another, so do the children of
every node that is dressed with them, and the node covers just these children. What is missing from
the text covers nothing, and stands where the next token begins: the blanks before it have gone to
the node around it.
-/

namespace PolicyEditor

/-- The tokens stand one right after another from the first offset to the last, and none is
empty. -/
def Token.Row (a : Nat) : List Token → (b : Nat) → Prop
  | [], b => a = b
  | t :: ts, b => t.start = a ∧ t.chars ≠ [] ∧ Token.Row t.stop ts b

namespace Token

theorem row_append {a b : Nat} {ts us : List Token} :
    Row a (ts ++ us) b ↔ ∃ m, Row a ts m ∧ Row m us b := by
  induction ts generalizing a with
  | nil => exact ⟨fun h => ⟨a, rfl, h⟩, fun ⟨_, hm, h⟩ => hm.symm ▸ h⟩
  | cons t ts ih =>
    simp only [List.cons_append, Row, ih]
    constructor
    · rintro ⟨hstart, hchars, m, hts, hus⟩
      exact ⟨m, ⟨hstart, hchars, hts⟩, hus⟩
    · rintro ⟨m, ⟨hstart, hchars, hts⟩, hus⟩
      exact ⟨hstart, hchars, m, hts, hus⟩

theorem Row.le {a b : Nat} {ts : List Token} (h : Row a ts b) : a ≤ b := by
  induction ts generalizing a with
  | nil => exact Nat.le_of_eq h
  | cons t ts ih =>
    obtain ⟨rfl, -, hts⟩ := h
    exact Nat.le_trans (Nat.le_add_right _ _) (ih hts)

theorem Row.mem {a b : Nat} {ts : List Token} (h : Row a ts b) {t : Token} (ht : t ∈ ts) :
    a ≤ t.start ∧ t.start < t.stop ∧ t.stop ≤ b := by
  obtain ⟨before, after, rfl⟩ := List.append_of_mem ht
  obtain ⟨m, hbefore, hstart, hchars, hafter⟩ := row_append.mp h
  have hlow : a ≤ t.start := hstart ▸ hbefore.le
  have hlong : t.start < t.stop := Nat.lt_add_of_pos_right (List.length_pos_of_ne_nil hchars)
  exact ⟨hlow, hlong, hafter.le⟩

theorem Splits.row {pos : Nat} {s : List Char} {ts : List Token} (h : Splits pos s ts) :
    Row pos ts (pos + s.length) := by
  induction h with
  | nil pos => exact (Nat.add_zero pos).symm
  | cons hbegins _ ih =>
    rw [List.length_append, ← Nat.add_assoc]
    exact ⟨rfl, hbegins.ne_nil, ih⟩

theorem row_scan (source : List Char) : Row 0 (scan source) source.length := by
  have h := (scanFrom_splits 0 source).row
  rwa [Nat.zero_add] at h

end Token

namespace Tree

open PolicyEditor.Token (Row row_append)

/-- Neither the first nor the last of these trees is a blank or a comment. -/
structure Trimmed (cs : List Tree) : Prop where
  first : ∀ c ∈ cs.head?, c.isTrivia = false
  last : ∀ c ∈ cs.getLast?, c.isTrivia = false

mutual

/-- A node covers just its children, these stand one right after another, and no blank or comment
stands at either end of them; so it is with every node inside. -/
def Tiled : Tree → Prop
  | .leaf _ _ => True
  | .node _ a b cs => Tiles a cs b ∧ Trimmed cs

/-- Tiled trees that stand one right after another from the first offset to the last. -/
def Tiles (a : Nat) : List Tree → (b : Nat) → Prop
  | [], b => a = b
  | c :: cs, b => c.start = a ∧ Tiled c ∧ Tiles c.stop cs b

end

theorem tiles_append {a b : Nat} {cs ds : List Tree} :
    Tiles a (cs ++ ds) b ↔ ∃ m, Tiles a cs m ∧ Tiles m ds b := by
  induction cs generalizing a with
  | nil => exact ⟨fun h => ⟨a, rfl, h⟩, fun ⟨_, hm, h⟩ => hm.symm ▸ h⟩
  | cons c cs ih =>
    simp only [List.cons_append, Tiles, ih]
    constructor
    · rintro ⟨hstart, hc, m, hcs, hds⟩
      exact ⟨m, ⟨hstart, hc, hcs⟩, hds⟩
    · rintro ⟨m, ⟨hstart, hc, hcs⟩, hds⟩
      exact ⟨hstart, hc, m, hcs, hds⟩

theorem tiles_of_row {a b : Nat} {ts : List Token} (h : Row a ts b) :
    Tiles a (ts.map ofToken) b := by
  induction ts generalizing a with
  | nil => exact h
  | cons t ts ih => exact ⟨h.1, trivial, ih h.2.2⟩

/-- The last of trees without gaps ends where they end. -/
theorem Tiles.stop {a b : Nat} {cs : List Tree} (h : Tiles a cs b) :
    (cs.getLast?.map Tree.stop).getD a = b := by
  induction cs generalizing a with
  | nil => exact h
  | cons c cs ih =>
    have hrest := ih h.2.2
    cases cs with
    | nil => exact hrest
    | cons d cs => exact hrest

/-! ### Dressing -/

theorem not_before_of_head {pending us : List Token} {u : Token} {offset : Nat}
    (h : notBefore pending offset = u :: us) : offset ≤ u.start := by
  have hfirst := List.head?_dropWhile_not (fun t : Token => decide (t.start < offset)) pending
  rw [notBefore] at h
  rw [h] at hfirst
  simpa using hfirst

/-- What is pending before the next token stands right in front of it, and the tokens behind follow
from there. -/
theorem row_split {a eof : Nat} {pending ts : List Token} (h : Row a (weave pending ts) eof) :
    Row a (before pending (startOf eof ts)) (startOf eof ts) ∧
      Row (startOf eof ts) (weave (notBefore pending (startOf eof ts)) ts) eof := by
  rw [← weave_split eof pending ts] at h
  obtain ⟨m, hbefore, hafter⟩ := row_append.mp h
  suffices hm : m = startOf eof ts by
    subst hm
    exact ⟨hbefore, hafter⟩
  cases ts with
  | cons t ts =>
    rw [startOf, weave, before_notBefore, notBefore_notBefore] at hafter
    exact hafter.1.symm
  | nil =>
    -- Behind the last token nothing is pending: no token begins at the end of the text.
    rw [startOf, weave] at hafter
    have hempty : notBefore pending eof = [] := by
      by_contra hne
      obtain ⟨u, us, hlate⟩ := List.exists_cons_of_ne_nil hne
      have hstart := not_before_of_head hlate
      rw [hlate] at hafter
      obtain ⟨rfl, hchars, hus⟩ := hafter
      have hstop : u.start + u.chars.length ≤ eof := hus.le
      have hlength : 0 < u.chars.length := List.length_pos_iff.mpr hchars
      omega
    rw [hempty] at hafter
    exact hafter

section

variable {α : Type} {f : Tree → α} (hf : ∀ pending t, f (dress pending t).1 = f t)

include hf

/-- Nothing is placed behind the last tree. -/
theorem getLast?_dressList (pending : List Token) (cs : List Tree) :
    (dressList pending cs).1.getLast?.map f = cs.getLast?.map f := by
  rcases List.eq_nil_or_concat cs with rfl | ⟨front, c, rfl⟩
  · rfl
  · rw [List.concat_eq_append, dressList_append, dressList, dressList, ← List.append_assoc,
      List.getLast?_concat, List.getLast?_concat]
    exact congrArg some (hf _ c)

/-- Nothing is placed in front of the first tree, if nothing is pending before it. -/
theorem head?_dressList {pending : List Token} {cs : List Tree}
    (h : ∀ c ∈ cs.head?, before pending c.start = []) :
    (dressList pending cs).1.head?.map f = cs.head?.map f := by
  cases cs with
  | nil => rfl
  | cons c cs =>
    rw [dressList, h c rfl]
    exact congrArg some (hf _ c)

end

theorem stop_dress (pending : List Token) (t : Tree) : (dress pending t).1.stop = t.stop := by
  cases t <;> rfl

theorem isTrivia_dress (pending : List Token) (t : Tree) :
    (dress pending t).1.isTrivia = t.isTrivia :=
  congrArg NodeKind.isTrivia (kind_dress pending t)

theorem Trimmed.dressList {cs : List Tree} (h : ∀ c ∈ cs, c.isTrivia = false) {pending : List Token}
    (hpending : ∀ c ∈ cs.head?, before pending c.start = []) :
    Trimmed (dressList pending cs).1 := by
  have hfirst := head?_dressList isTrivia_dress hpending
  have hlast := getLast?_dressList isTrivia_dress pending cs
  constructor
  · intro c hc
    rw [Option.mem_def.mp hc] at hfirst
    obtain ⟨d, hd, hsame⟩ := Option.map_eq_some_iff.mp hfirst.symm
    rw [← hsame]
    exact h d (List.mem_of_mem_head? hd)
  · intro c hc
    rw [Option.mem_def.mp hc] at hlast
    obtain ⟨d, hd, hsame⟩ := Option.map_eq_some_iff.mp hlast.symm
    rw [← hsame]
    exact h d (List.mem_of_getLast? hd)

/-- What trees read from tokens that are neither blanks nor comments is neither. -/
theorem Reads.not_trivia {eof : Nat} {ts rest : List Token} {cs : List Tree}
    (h : Reads eof ts cs rest) {declared : Bool} (hformed : Formed declared cs)
    (hts : ∀ t ∈ ts, t.isTrivia = false) : ∀ c ∈ cs, c.isTrivia = false := by
  induction h with
  | nil => exact List.forall_mem_nil _
  | leaf k t _ ih =>
    cases hformed with
    | leaf hk hcs =>
      refine List.forall_mem_cons.mpr ⟨?_, ih hcs fun u hu => hts u (List.mem_cons_of_mem t hu)⟩
      exact (isTrivia_eq_of_isLeafOf hk).symm.trans (hts t List.mem_cons_self)
  | node k inner _ _ ih =>
    cases hformed with
    | node hfits _ hcs =>
      refine List.forall_mem_cons.mpr ⟨hfits.not_trivia, ih hcs fun u hu => hts u ?_⟩
      exact inner.tokens_append_rest ▸ List.mem_append_right _ hu

/-- Trees that read tokens are dressed to trees without gaps, up to where the tokens go on that they
have left. -/
theorem Reads.tiles {eof : Nat} {ts rest : List Token} {cs : List Tree} (h : Reads eof ts cs rest)
    {declared : Bool} (hformed : Formed declared cs) (hts : ∀ t ∈ ts, t.isTrivia = false) {a : Nat}
    {pending : List Token} (hrow : Row a (weave pending ts) eof) :
    ∃ b, Tiles a (Tree.dressList pending cs).1 b ∧
      Row b (weave (Tree.dressList pending cs).2 rest) eof := by
  induction h generalizing declared a pending with
  | nil => exact ⟨a, rfl, hrow⟩
  | leaf k t _ ih =>
    cases hformed with
    | leaf _ hcs =>
      obtain ⟨hbefore, hafter⟩ := row_split hrow
      rw [startOf, weave, before_notBefore, notBefore_notBefore] at hafter
      obtain ⟨b, htiles, hrest⟩ := ih hcs (fun u hu => hts u (List.mem_cons_of_mem t hu))
        hafter.2.2
      exact ⟨b, tiles_append.mpr ⟨_, tiles_of_row hbefore, rfl, trivial, htiles⟩, hrest⟩
  | @node k ts mid rest cs ds inner outer ihInner ihOuter =>
    cases hformed with
    | node _ hcs hds =>
      obtain ⟨hbefore, hafter⟩ := row_split hrow
      obtain ⟨m, htiles, hmid⟩ := ihInner hcs hts hafter
      have hmidTrivia : ∀ t ∈ mid, t.isTrivia = false := fun t ht =>
        hts t (inner.tokens_append_rest ▸ List.mem_append_right _ ht)
      obtain ⟨b, houter, hrest⟩ := ihOuter hds hmidTrivia hmid
      -- The node begins where its first token does, and ends where its last child does.
      have hstart : (enclose k (startOf eof mid) cs).start = startOf eof ts := inner.start_eq
      have hstop : (enclose k (startOf eof mid) cs).stop = m := by
        have hlast := htiles.stop
        rw [getLast?_dressList stop_dress] at hlast
        cases inner with
        | nil => exact hlast
        | leaf => exact hlast
        | node => exact hlast
      have hfirst : ∀ c ∈ cs.head?, before (notBefore pending (startOf eof ts)) c.start = [] := by
        intro c hc
        have hc' : c.start = startOf eof ts := by
          rw [← inner.start_eq, Option.mem_def.mp hc]
          rfl
        rw [hc', before_notBefore]
      have hinner : ∀ c ∈ cs, c.isTrivia = false := inner.not_trivia hcs hts
      refine ⟨b, ?_, ?_⟩
      · simp only [dressList, hstart]
        refine tiles_append.mpr ⟨_, tiles_of_row hbefore, hstart, ⟨?_, .dressList hinner hfirst⟩, ?_⟩
        · change Tiles (enclose k (startOf eof mid) cs).start _ (enclose k (startOf eof mid) cs).stop
          rw [hstart, hstop]
          exact htiles
        · rw [stop_dress, hstop]
          exact houter
      · simp only [dressList, hstart]
        exact hrest

end Tree

end PolicyEditor
