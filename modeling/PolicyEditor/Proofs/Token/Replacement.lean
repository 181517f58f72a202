import PolicyEditor.Proofs.Token.Splitting
import PolicyEditor.Proofs.Token.Boundary

/-!
A name replaced by a reserved word. All other tokens of the text stay what they are: a token before
the name that ended there still does, since a reserved word begins with two letters.
-/

namespace PolicyEditor.Token

open PolicyEditor.Text

/-! ### Numerals -/

/-- After every letter in the text there is a character that is none. -/
def Sober (s : List Char) : Prop :=
  ∀ u c v, s = u ++ c :: v → isNameStart c = true → ∃ d ∈ v.head?, isNameStart d = false

theorem isNameStart_eq_false_of_isDigit {c : Char} (h : isDigit c = true) :
    isNameStart c = false := by
  apply Bool.eq_false_iff.mpr
  intro hname
  rw [isDigit_eq_false_of_isNameStart hname] at h
  cases h

theorem sober_of_none {s : List Char} (h : ∀ c ∈ s, isNameStart c = false) : Sober s := by
  rintro u c v rfl hc
  rw [h c (List.mem_append_right u List.mem_cons_self)] at hc
  cases hc

theorem Sober.append {s t : List Char} (hs : Sober s) (ht : Sober t) : Sober (s ++ t) := by
  intro u c v heq hc
  rcases List.append_eq_append_iff.mp heq with ⟨w, rfl, hw⟩ | ⟨w, hw, hv⟩
  · exact ht w c v hw hc
  · cases w with
    | nil => exact ht [] c v hv.symm hc
    | cons b w =>
      obtain ⟨rfl, rfl⟩ := List.cons.inj hv
      obtain ⟨d, hd, hdigit⟩ := hs u c w hw hc
      refine ⟨d, ?_, hdigit⟩
      cases w with
      | nil => cases hd
      | cons => exact hd

/-- One letter in front of other characters. -/
theorem sober_cons (e : Char) {s : List Char} (hne : s ≠ [])
    (hs : ∀ c ∈ s, isNameStart c = false) : Sober (e :: s) := by
  intro u c v heq hc
  cases u with
  | nil =>
    obtain ⟨-, rfl⟩ := List.cons.inj heq
    obtain ⟨d, tail, rfl⟩ := List.exists_cons_of_ne_nil hne
    exact ⟨d, rfl, hs d List.mem_cons_self⟩
  | cons b u =>
    obtain ⟨-, rfl⟩ := List.cons.inj heq
    rw [hs c (List.mem_append_right u List.mem_cons_self)] at hc
    cases hc

theorem Run.no_letter {s : List Char} (h : Run isDigit s) : ∀ c ∈ s, isNameStart c = false :=
  fun c hc => isNameStart_eq_false_of_isDigit (h.2 c hc)

theorem Exponent.sober {s : List Char} (h : Exponent s) : Sober s := by
  cases h with
  | none => exact sober_of_none (List.forall_mem_nil _)
  | unsigned _ hds => exact sober_cons _ hds.1 hds.no_letter
  | signed _ hsign hds =>
    refine sober_cons _ (List.cons_ne_nil _ _) (List.forall_mem_cons.mpr ⟨?_, hds.no_letter⟩)
    rcases hsign with rfl | rfl <;> decide

theorem Numeral.sober {s : List Char} (h : Numeral s) : Sober s := by
  obtain ⟨whole, part, power, hwhole, hpart, hpower, rfl⟩ := h
  have hfraction : Sober part := by
    cases hpart with
    | none => exact sober_of_none (List.forall_mem_nil _)
    | some hds => exact sober_of_none (List.forall_mem_cons.mpr ⟨by decide, hds.no_letter⟩)
  exact (sober_of_none hwhole.no_letter).append (hfraction.append hpower.sober)

/-! ### One token in front of the name -/

theorem prefix_append_cases {s a b : List Char} (h : s <+: a ++ b) :
    s <+: a ∨ ∃ v, v ≠ [] ∧ v <+: b ∧ s = a ++ v := by
  by_cases hle : s.length ≤ a.length
  · exact .inl (List.prefix_of_prefix_length_le h (List.prefix_append a b) hle)
  · have ha : a <+: s := List.prefix_of_prefix_length_le (List.prefix_append a b) h (by omega)
    obtain ⟨v, rfl⟩ := ha
    refine .inr ⟨v, ?_, (List.prefix_append_right_inj a).mp h, rfl⟩
    rintro rfl
    rw [List.append_nil] at hle
    exact hle (Nat.le_refl _)

/-- What a name ends before goes on with no character of a name, so any other name ends there. -/
theorem Longest.name_swap {x w post : List Char} (h : Longest Name x post) (hw : Name w) :
    Longest Name w post := by
  refine ⟨hw, fun s hs hname => ?_⟩
  rcases prefix_append_cases hs with hprefix | ⟨v, hne, hv, rfl⟩
  · exact hprefix.length_le
  obtain ⟨d, v, rfl⟩ := List.exists_cons_of_ne_nil hne
  obtain ⟨c, tail, heq, -, htail⟩ := hname
  obtain ⟨b, more, rfl, -, -⟩ := hw
  obtain ⟨-, rfl⟩ := List.cons.inj heq
  have hd := htail d (List.mem_append_right more List.mem_cons_self)
  -- With this character the first name would have been longer.
  obtain ⟨e, others, rfl, he, hothers⟩ := h.1
  have hlonger := h.2 (e :: others ++ [d])
    ((List.prefix_append_right_inj _).mpr ((List.prefix_append [d] v).trans hv))
    ⟨e, others ++ [d], rfl, he, List.forall_mem_append.mpr
      ⟨hothers, List.forall_mem_singleton.mpr hd⟩⟩
  rw [List.length_append, List.length_singleton] at hlonger
  omega

section

variable {chars mid x w post : List Char}

/-- A longest text stays one when a name behind it is replaced, if no text of its class reaches into
the new name, or one would have reached into the old one. -/
theorem Longest.replace {P : List Char → Prop} (h : Longest P chars (mid ++ (x ++ post)))
    (hreach : ∀ v, v ≠ [] → v <+: w ++ post → P (chars ++ mid ++ v) →
      ∃ t, t ≠ [] ∧ t <+: x ++ post ∧ P (chars ++ mid ++ t)) :
    Longest P chars (mid ++ (w ++ post)) := by
  refine ⟨h.1, fun s hs hP => ?_⟩
  rw [← List.append_assoc] at hs
  rcases prefix_append_cases hs with hprefix | ⟨v, hne, hv, rfl⟩
  · refine h.2 s ?_ hP
    rw [← List.append_assoc]
    exact hprefix.trans (List.prefix_append _ _)
  · obtain ⟨t, ht, hprefix, hPt⟩ := hreach v hne hv hP
    have hlonger := h.2 (chars ++ mid ++ t) (by
      rw [← List.append_assoc]
      exact (List.prefix_append_right_inj _).mpr hprefix) hPt
    have hpos := List.length_pos_iff.mpr ht
    simp only [List.length_append] at hlonger
    omega

/-- A text on one line that goes on to the end of it. -/
theorem line_reach {q d : Char} {v : List Char} (hchars : ∃ body, chars = q :: body ∧ '\n' ∉ body)
    (hlonger : ∃ body, chars ++ mid ++ v = q :: body ∧ '\n' ∉ body) (hd : isNameStart d = true) :
    ∃ body, chars ++ mid ++ [d] = q :: body ∧ '\n' ∉ body := by
  obtain ⟨body, rfl, -⟩ := hchars
  obtain ⟨more, heq, hline⟩ := hlonger
  obtain ⟨-, rfl⟩ := List.cons.inj heq
  refine ⟨body ++ mid ++ [d], rfl, fun hmem => ?_⟩
  rcases List.mem_append.mp hmem with hmem | hmem
  · exact hline (List.mem_append_left v hmem)
  · obtain rfl := List.mem_singleton.mp hmem
    exact absurd hd (by decide)

theorem Name.reach {d : Char} {v : List Char} (h : Name chars) (hlonger : Name (chars ++ mid ++ v))
    (hd : isNameStart d = true) : Name (chars ++ mid ++ [d]) := by
  obtain ⟨c, rest, rfl, hc, -⟩ := h
  obtain ⟨b, more, heq, -, hmore⟩ := hlonger
  obtain ⟨-, rfl⟩ := List.cons.inj heq
  refine ⟨c, rest ++ mid ++ [d], rfl, hc, List.forall_mem_append.mpr ⟨fun e he => ?_, ?_⟩⟩
  · exact hmore e (List.mem_append_left v he)
  · exact List.forall_mem_singleton.mpr (.inl hd)

theorem Sign.no_letter {s : List Char} (h : Sign s) : ∀ c ∈ s, isNameStart c = false := by
  obtain ⟨k, hk⟩ := h
  have hall : s.all (fun c => !isNameStart c) = true := by
    cases hk with
    | operator sign => cases sign <;> decide
    | mark sign => cases sign <;> decide
  simpa only [List.all_eq_true, Bool.not_eq_true'] using hall

/-- The token in front of a name, or of a reserved word in its place. -/
theorem Begins.replace {k : Kind} (h : Begins k chars (mid ++ (x ++ post)))
    (hx : Longest Name x post) {b c : Char} {tail : List Char} (hb : isNameStart b = true)
    (hc : isNameStart c = true) : Begins k chars (mid ++ (b :: c :: tail ++ post)) := by
  obtain ⟨d, rest, rfl, hd, -⟩ := hx.1
  have hfirst : [d] <+: d :: rest ++ post := List.prefix_append [d] (rest ++ post)
  have hletter : ∀ v, v ≠ [] → v <+: b :: c :: tail ++ post → b ∈ v := by
    intro v hne hv
    obtain ⟨e, v, rfl⟩ := List.exists_cons_of_ne_nil hne
    obtain ⟨rfl, -⟩ := List.cons_prefix_cons.mp hv
    exact List.mem_cons_self
  have hopen : ∀ {q : Char}, Longest (fun s => ∃ body, s = q :: body ∧ '\n' ∉ body) chars
      (mid ++ (d :: rest ++ post)) → Longest (fun s => ∃ body, s = q :: body ∧ '\n' ∉ body) chars
      (mid ++ (b :: c :: tail ++ post)) := fun h =>
    h.replace fun v _ _ hP => ⟨[d], List.cons_ne_nil _ _, hfirst, line_reach h.1 hP hd⟩
  have hname : Longest Name chars (mid ++ (d :: rest ++ post)) →
      Longest Name chars (mid ++ (b :: c :: tail ++ post)) := fun h =>
    h.replace fun v _ _ hP => ⟨[d], List.cons_ne_nil _ _, hfirst, h.1.reach hP hd⟩
  generalize hafter : mid ++ (d :: rest ++ post) = after at h
  cases h with
  | whitespace h =>
    subst hafter
    refine .whitespace (h.replace fun v hne hv hP => ?_)
    have hblank := hP.2 b (List.mem_append_right _ (hletter v hne hv))
    rw [isBlank_eq_false_of_isNameStart hb] at hblank
    cases hblank
  | comment h =>
    subst hafter
    exact .comment (hopen h)
  | string h => exact .string (h.1.longest _)
  | openString h hnone =>
    subst hafter
    refine .openString (hopen h) fun s hs hquoted => ?_
    rw [← List.append_assoc] at hs
    rcases prefix_append_cases hs with hprefix | ⟨v, -, -, rfl⟩
    · refine hnone s ?_ hquoted
      rw [← List.append_assoc]
      exact hprefix.trans (List.prefix_append _ _)
    · -- A string that reached the word would be on one line with the quote, and so would the name.
      obtain ⟨body, hbody, hline⟩ := h.1
      have hsame : '\n' ∉ body ++ mid ++ v := fun hmem => hquoted.no_newline (by
        rw [hbody]
        exact List.mem_cons_of_mem _ hmem)
      have hreach := line_reach h.1 ⟨body ++ mid ++ v, by rw [hbody]; rfl, hsame⟩ hd
      have hlonger := h.2 (chars ++ mid ++ [d]) (by
        rw [← List.append_assoc]
        exact (List.prefix_append_right_inj _).mpr hfirst) hreach
      simp only [List.length_append, List.length_singleton] at hlonger
      omega
  | rawString h => exact .rawString (h.1.longest _)
  | openRawString =>
    exact absurd hafter (List.append_ne_nil_of_right_ne_nil _ (List.cons_ne_nil _ _))
  | number h =>
    subst hafter
    refine .number (h.replace fun v hne hv hP => ?_)
    obtain ⟨e, v, rfl⟩ := List.exists_cons_of_ne_nil hne
    obtain ⟨heq, hv⟩ := List.cons_prefix_cons.mp hv
    obtain ⟨f, hf, hdigit⟩ := hP.sober _ e v rfl (heq ▸ hb)
    cases v with
    | nil => cases hf
    | cons g v =>
      obtain ⟨rfl, -⟩ := List.cons_prefix_cons.mp hv
      obtain rfl := Option.some.inj hf
      rw [hc] at hdigit
      cases hdigit
  | keyword word h =>
    subst hafter
    exact .keyword word (hname h)
  | identifier h hword =>
    subst hafter
    exact .identifier (hname h) hword
  | sign h hspells =>
    subst hafter
    refine .sign (h.replace fun v hne hv hP => ?_) hspells
    have hnone := hP.no_letter b (List.mem_append_right _ (hletter v hne hv))
    rw [hb] at hnone
    cases hnone
  | alien h => exact .alien h

end

/-! ### Whole texts -/

def content (t : Token) : Kind × List Char :=
  (t.kind, t.chars)

theorem word_letters (word : Keyword) : ∃ b c tail, word.text.toList = b :: c :: tail ∧
    isNameStart b = true ∧ isNameStart c = true := by
  cases word <;> exact ⟨_, _, _, rfl, by decide, by decide⟩

theorem name_word (word : Keyword) : Name word.text.toList := by
  have hall : word.text.toList.all isNameStart = true := by cases word <;> decide
  obtain ⟨b, c, tail, htext, hb, -⟩ := word_letters word
  rw [htext] at hall ⊢
  refine ⟨b, c :: tail, rfl, hb, fun d hd => .inl ?_⟩
  exact List.all_eq_true.mp hall d (List.mem_cons_of_mem b hd)

theorem Begins.name {k : Kind} {chars rest : List Char} (h : Begins k chars rest)
    (hk : k.isName = true) : Longest Name chars rest := by
  cases h with
  | keyword word h => exact h
  | identifier h => exact h
  | sign _ hspells => cases hspells <;> cases hk
  | _ => cases hk

theorem Splits.move {pos : Nat} {s : List Char} {ts : List Token} (h : Splits pos s ts)
    (pos' : Nat) : ∃ ts', Splits pos' s ts' ∧ ts'.map content = ts.map content := by
  induction h generalizing pos' with
  | nil => exact ⟨[], .nil pos', rfl⟩
  | @cons k chars rest pos ts hbegins _ ih =>
    obtain ⟨ts', hts', hcontent⟩ := ih (pos' + chars.length)
    exact ⟨⟨k, chars, pos'⟩ :: ts', .cons hbegins hts', by rw [List.map_cons, hcontent]; rfl⟩

theorem Splits.replace {pos : Nat} {s : List Char} {us vs : List Token} {x : Token}
    (h : Splits pos s (us ++ x :: vs)) (hx : x.kind.isName = true) (word : Keyword) :
    ∃ front post vs', s = front ++ (x.chars ++ post) ∧ x.start = pos + front.length ∧
      Longest Name x.chars post ∧ vs'.map content = vs.map content ∧
      Splits pos (front ++ (word.text.toList ++ post))
        (us ++ ⟨.keyword word, word.text.toList, x.start⟩ :: vs') := by
  induction us generalizing pos s with
  | nil =>
    rw [List.nil_append] at h
    cases h with
    | @cons k chars rest _ _ hbegins hrest =>
      have hname : Longest Name chars rest := hbegins.name hx
      obtain ⟨vs', hvs', hcontent⟩ := hrest.move (pos + word.text.toList.length)
      exact ⟨[], rest, vs', rfl, rfl, hname, hcontent,
        .cons (.keyword word (hname.name_swap (name_word word))) hvs'⟩
  | cons u us ih =>
    rw [List.cons_append] at h
    cases h with
    | @cons k chars rest _ _ hbegins hrest =>
      obtain ⟨front, post, vs', rfl, hstart, hname, hcontent, hsplits⟩ := ih hrest
      obtain ⟨b, c, tail, htext, hb, hc⟩ := word_letters word
      refine ⟨chars ++ front, post, vs', ?_, ?_, hname, hcontent, ?_⟩
      · rw [List.append_assoc]
      · rw [hstart, List.length_append, Nat.add_assoc]
      · rw [List.append_assoc, List.cons_append]
        refine .cons ?_ hsplits
        rw [htext]
        exact hbegins.replace hname hb hc

def replaceBy (source : List Char) (x : Token) (word : Keyword) : List Char :=
  source.take x.start ++ (word.text.toList ++ source.drop x.stop)

theorem scan_replaceBy {source : List Char} {us vs : List Token} {x : Token}
    (h : scan source = us ++ x :: vs) (hx : x.kind.isName = true) (word : Keyword) :
    ∃ vs', vs'.map content = vs.map content ∧ scan (replaceBy source x word) =
      us ++ ⟨.keyword word, word.text.toList, x.start⟩ :: vs' := by
  have hsplits : Splits 0 source (us ++ x :: vs) := h ▸ scanFrom_splits 0 source
  obtain ⟨front, post, vs', rfl, hstart, -, hcontent, hreplaced⟩ := hsplits.replace hx word
  rw [Nat.zero_add] at hstart
  have hdrop : (front ++ (x.chars ++ post)).drop (front.length + x.chars.length) = post := by
    rw [← List.append_assoc, ← List.length_append, List.drop_left]
  have htext : replaceBy (front ++ (x.chars ++ post)) x word =
      front ++ (word.text.toList ++ post) := by
    rw [replaceBy, stop, hstart, List.take_left, hdrop]
  exact ⟨vs', hcontent, htext ▸ hreplaced.eq_scanFrom.symm⟩

end PolicyEditor.Token
