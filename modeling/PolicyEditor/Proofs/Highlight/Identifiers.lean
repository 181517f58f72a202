import PolicyEditor.Proofs.Highlight.Coverage
import PolicyEditor.Proofs.Tree.Frames

/-!
The style of an identifier, told from where it stands. Highlighting hands a role down from each node
to its children; here the same style is read off the frames above the identifier, from the rule's
head or the callee that it is a name in. The two agree because of the shape of references: they have
a base and a part behind it, and what follows a dot is a name.
-/

namespace PolicyEditor.Highlight

open PolicyEditor.Tree (Frame plug Formed isMark face facesOf declares)

/-! ### Where names stand -/

/-- The gap is the first child or comes right after a dot. -/
def onName (f : Frame) : Bool :=
  f.first || f.follows .dot

def calls (f : Frame) : Bool :=
  f.kind == .callExpression && f.first

def namesRule : List Frame → Bool
  | [] => false
  | f :: _ => f.kind == .ruleHead && onName f

def isDeclared (fs : List Frame) : Bool :=
  fs.any fun f => f.kind.declares

/-- The place holds what a call calls, or the base of a reference in such a place. -/
def leadsToCallee : List Frame → Bool
  | [] => false
  | f :: fs => calls f || (f.kind == .refExpression && f.first && leadsToCallee fs)

/-- The place holds what a call calls, or the last name after a dot of what a call calls. -/
def isCalled : List Frame → Bool
  | [] => false
  | f :: fs =>
    calls f || (f.kind == .refExpression && f.follows .dot && f.last && fs.head?.any calls)

/-- The place is on the dotted name of a reference that is called or leads to one that is. -/
def qualifies : List Frame → Bool
  | [] => false
  | f :: fs => f.kind == .refExpression && onName f && leadsToCallee fs

def styleIn (fs : List Frame) : Style :=
  if namesRule fs then .functionDefinition
  else if isDeclared fs then .namespaceName
  else if isCalled fs then .functionCall
  else if qualifies fs then .namespaceName
  else .variable

/-! ### What highlighting hands down -/

/-- What highlighting knows in a place, if it holds a leaf or if it holds another node. -/
def placeIn : List Frame → (leaf : Bool) → Place
  | [], _ => ⟨.plain, false, false⟩
  | f :: fs, leaf => childPlace f.kind (placeIn fs false) ⟨f.first, f.follows .dot⟩ f.last leaf

theorem foldl_pass (l : Left) (cs : List Tree) : cs.foldl Left.pass l =
    ⟨l.first && cs.all Tree.isTrivia,
      (cs.filter fun c => !c.isTrivia).getLast?.elim l.afterDot isDot⟩ := by
  induction cs generalizing l with
  | nil => simp only [List.foldl_nil, List.all_nil, Bool.and_true, List.filter_nil,
      List.getLast?_nil, Option.elim_none]
  | cons c cs ih =>
    rw [List.foldl_cons, ih, Left.pass]
    by_cases hc : c.isTrivia = true
    · rw [if_pos hc, List.filter_cons_of_neg (by rw [hc]; decide), List.all_cons, hc, Bool.true_and]
    · rw [if_neg hc, List.filter_cons_of_pos (by simpa using hc), List.all_cons,
        List.getLast?_cons]
      rw [Bool.not_eq_true] at hc
      rw [hc, Bool.false_and, Bool.and_false]
      cases (cs.filter fun c => !c.isTrivia).getLast? <;> rfl

theorem isDot_eq : isDot = isMark .dot := by
  funext t
  cases t <;> rfl

theorem foldl_pass_left (f : Frame) :
    f.left.foldl Left.pass ⟨true, false⟩ = ⟨f.first, f.follows .dot⟩ := by
  rw [foldl_pass, Bool.true_and, isDot_eq]
  show (⟨f.first, f.before.getLast?.elim false (isMark .dot)⟩ : Left) = _
  rw [Frame.follows]
  cases f.before.getLast? <;> rfl

/-- The spans of a list of children have those of each child in them. -/
theorem spansOfList_append_cons (parent : NodeKind) (place : Place) (l : Left)
    (cs : List Tree) (c : Tree) (ds : List Tree) :
    ∃ pre post, spansOfList parent place l (cs ++ c :: ds) =
      pre ++ spansAt (childPlace parent place (cs.foldl Left.pass l) (ds.all Tree.isTrivia)
        c.isLeaf) c ++ post := by
  induction cs generalizing l with
  | nil => exact ⟨[], _, rfl⟩
  | cons d cs ih =>
    obtain ⟨pre, post, hspans⟩ := ih (l.pass d)
    let here := childPlace parent place l ((cs ++ c :: ds).all Tree.isTrivia) d.isLeaf
    refine ⟨spansAt here d ++ pre, post, ?_⟩
    rw [List.cons_append, spansOfList, hspans, List.foldl_cons]
    simp only [here, List.append_assoc]

/-- The spans of a tree have those of each node in it, styled by its place. -/
theorem spans_plug (fs : List Frame) (t : Tree) : ∃ pre post,
    spans (plug fs t) = pre ++ spansAt (placeIn fs t.isLeaf) t ++ post := by
  induction fs generalizing t with
  | nil => exact ⟨[], [], (List.append_nil _).symm⟩
  | cons f fs ih =>
    obtain ⟨pre, post, houter⟩ := ih (f.fill t)
    obtain ⟨inside, behind, hinner⟩ :=
      spansOfList_append_cons f.kind (placeIn fs false) ⟨true, false⟩ f.left t f.right
    refine ⟨pre ++ inside, behind ++ post, ?_⟩
    have hnode : spansAt (placeIn fs (f.fill t).isLeaf) (f.fill t) =
        spansOfList f.kind (placeIn fs false) ⟨true, false⟩ (f.left ++ t :: f.right) := rfl
    rw [plug, houter, hnode, hinner, foldl_pass_left]
    simp only [placeIn, Frame.last, List.append_assoc]

theorem declared_placeIn (fs : List Frame) (leaf : Bool) :
    (placeIn fs leaf).declared = isDeclared fs := by
  induction fs generalizing leaf with
  | nil => rfl
  | cons f fs ih =>
    have hkinds : (f.kind == .packageDeclaration || f.kind == .importStatement) =
        f.kind.declares := by
      cases f.kind <;> rfl
    rw [placeIn, childPlace, ih, Bool.or_assoc, hkinds, Bool.or_comm]
    rfl

/-! ### References -/

def Dotted (f : Face) : Prop :=
  ∃ k u, f = .leaf k u ∧ u.kind = .mark .dot

theorem not_dotted_of_isExpr {f : Face} (h : f.isExpr = true) : ¬ Dotted f := by
  rintro ⟨k, u, rfl, hdot⟩
  have hliteral := (Bool.and_eq_true_iff.mp h).2
  rw [hdot] at hliteral
  cases hliteral

theorem isExpr_of_isBase {f : Face} (h : f.isBase = true) : f.isExpr = true := by
  cases f with
  | leaf k t => exact h
  | node k e =>
    show ((k.isComposite || _ || _) || _) = true
    rw [show k.isComposite = true from h]
    rfl

/-- A reference is a base with a name or an index behind it. -/
theorem reference_cases {fs : List Face} (h : Shape .refExpression fs) :
    (∃ base dot name, fs = [base, dot, name] ∧ base.isExpr = true ∧
      (name.isName = true ∨ name = .missing)) ∨
    ∃ base opener value closer, fs = [base, opener, value, closer] ∧ base.isExpr = true ∧
      opener.isToken (.mark .lbracket) = true ∧ value.isExpr = true := by
  generalize hk : NodeKind.refExpression = k at h
  cases h with
  | member hbase _ hname => exact .inl ⟨_, _, _, rfl, isExpr_of_isBase hbase, hname⟩
  | index hbase hopener hvalue =>
    exact .inr ⟨_, _, _, _, rfl, isExpr_of_isBase hbase, hopener, hvalue⟩
  | binary _ hbinding =>
    have hbinary := (Grammar.binding_node hbinding).2.1
    rw [← hk] at hbinary
    cases hbinary
  | collection he => subst hk; cases he
  | comprehension he => subst hk; cases he
  | free he => subst hk; cases he
  | _ => cases hk

/-- Only a name can follow the dot of a reference, or the placeholder for one. -/
theorem name_after_dot {fs : List Face} (h : Shape .refExpression fs) :
    fs.IsChain fun d f => Dotted d → f.isName = true ∨ f = .missing := by
  rcases reference_cases h with ⟨base, dot, name, rfl, hbase, hname⟩ |
      ⟨base, opener, value, closer, rfl, hbase, hopener, hvalue⟩
  · exact .cons_cons (fun hdot => absurd hdot (not_dotted_of_isExpr hbase))
      (.cons_cons (fun _ => hname) (.singleton _))
  · refine .cons_cons (fun hdot => absurd hdot (not_dotted_of_isExpr hbase))
      (.cons_cons ?_ (.cons_cons (fun hdot => absurd hdot (not_dotted_of_isExpr hvalue))
        (.singleton _)))
    obtain ⟨t, rfl, hbracket⟩ := Face.isToken_iff.mp hopener
    rintro ⟨k, u, heq, hdot⟩
    cases heq
    rw [hbracket] at hdot
    cases hdot

theorem not_shape_singleton (f : Face) : ¬ Shape .refExpression [f] := by
  intro h
  rcases reference_cases h with ⟨_, _, _, heq, -⟩ | ⟨_, _, _, _, heq, -⟩ <;> cases heq

variable {f : Frame} {fs : List Frame} {t : Tree}

/-- A reference outside of packages and imports has the shape of one. -/
theorem shape_of_plug (h : Formed false [plug (f :: fs) t]) (ht : t.isTrivia = false)
    (hdeclared : isDeclared fs = false) (hkind : f.kind = .refExpression) :
    Shape .refExpression (f.before.map face ++ t.face :: f.after.map face) := by
  have hplain : declares fs = false := by
    cases fs with
    | nil => rfl
    | cons g fs => exact (Bool.or_eq_false_iff.mp hdeclared).1
  have hshape := (h.fits_of_plug ht).shape (by rw [hplain, Bool.false_and])
  rwa [hkind] at hshape

/-- In such a reference no node with children follows a dot. -/
theorem not_follows_dot {g : Frame} (h : Formed false [plug (g :: f :: fs) t])
    (hdeclared : isDeclared fs = false) (hkind : f.kind = .refExpression) :
    f.follows .dot = false := by
  rw [← Bool.not_eq_true, Frame.follows]
  intro hfollows
  obtain ⟨d, hd, hdot⟩ := (Option.any_eq_true _ _).mp hfollows
  obtain ⟨init, hbefore⟩ := List.getLast?_eq_some_iff.mp hd
  have hfill : Formed false [plug (f :: fs) (g.fill t)] := h
  have hchain := name_after_dot (shape_of_plug hfill h.fill_not_trivia hdeclared hkind)
  rw [hbefore, List.map_append, List.map_cons, List.map_nil, List.append_assoc,
    List.singleton_append] at hchain
  have hdotted : Dotted d.face := by
    cases d with
    | node => cases hdot
    | leaf k u => exact ⟨k, u, rfl, beq_iff_eq.mp hdot⟩
  rcases (List.isChain_append_cons_cons.mp hchain).2.1 hdotted with hname | hmissing
  · cases hname
  · rw [Face.missing, Frame.fill, Tree.face, Face.node.injEq, List.isEmpty_iff] at hmissing
    exact absurd hmissing.2 (List.append_ne_nil_of_right_ne_nil _ (List.cons_ne_nil _ _))

/-- In such a reference no child is the only one. -/
theorem not_last_of_first (h : Formed false [plug (f :: fs) t]) (ht : t.isTrivia = false)
    (hdeclared : isDeclared fs = false) (hkind : f.kind = .refExpression)
    (hfirst : f.first = true) : f.last = false := by
  rw [← Bool.not_eq_true]
  intro hlast
  have hshape := shape_of_plug h ht hdeclared hkind
  rw [Frame.before_eq_nil hfirst, Frame.after_eq_nil hlast] at hshape
  exact not_shape_singleton _ hshape

/-! ### Roles -/

def roleIn (fs : List Frame) : Role :=
  if fs.head?.any calls then .callee else if leadsToCallee fs then .qualifier else .plain

/-- A role other than `plain` is handed down exactly to what leads to a callee. -/
theorem roleIn_cases (fs : List Frame) :
    (roleIn fs = .callee ∧ fs.head?.any calls = true ∧ leadsToCallee fs = true) ∨
    (roleIn fs = .qualifier ∧ fs.head?.any calls = false ∧ leadsToCallee fs = true) ∨
    (roleIn fs = .plain ∧ fs.head?.any calls = false ∧ leadsToCallee fs = false) := by
  rw [roleIn]
  cases hcalls : fs.head?.any calls with
  | true =>
    obtain ⟨f, hf, hcall⟩ := (Option.any_eq_true _ _).mp hcalls
    obtain ⟨gs, rfl⟩ := List.head?_eq_some_iff.mp hf
    exact .inl ⟨rfl, rfl, by rw [leadsToCallee, hcall, Bool.true_or]⟩
  | false =>
    cases leadsToCallee fs with
    | true => exact .inr (.inl ⟨rfl, rfl, rfl⟩)
    | false => exact .inr (.inr ⟨rfl, rfl, rfl⟩)

theorem role_placeIn {g : Frame} (h : Formed false [plug (g :: fs) t])
    (hdeclared : isDeclared fs = false) : (placeIn fs false).role = roleIn fs := by
  induction fs generalizing g t with
  | nil => rfl
  | cons f fs ih =>
    have houter : isDeclared fs = false := (Bool.or_eq_false_iff.mp hdeclared).2
    have hfill : Formed false [plug (f :: fs) (g.fill t)] := h
    show childRole f.kind (placeIn fs false).role ⟨f.first, f.follows .dot⟩ f.last false =
      if calls f then .callee else if leadsToCallee (f :: fs) then .qualifier else .plain
    rw [ih hfill houter, leadsToCallee, calls]
    cases hkind : f.kind
    case ruleHead => cases f.first <;> cases f.follows .dot <;> rfl
    case callExpression => cases f.first <;> rfl
    case refExpression =>
      rw [not_follows_dot h houter hkind]
      cases f.first with
      | false => rfl
      | true =>
        -- The last child of a reference is called only if it is a leaf, so a base qualifies.
        rcases roleIn_cases fs with ⟨hrole, -, hleads⟩ | ⟨hrole, -, hleads⟩ | ⟨hrole, -, hleads⟩ <;>
          rw [hrole, hleads] <;> cases f.last <;> rfl
    all_goals rfl

/-- Below a reference a name takes its style from the role of the reference. -/
theorem identifierStyle_reference (h : Formed false [plug (f :: fs) t]) (ht : t.isTrivia = false)
    (hkind : f.kind = .refExpression) (hdeclared : isDeclared fs = false)
    {place : Place} (hplace : place.declared = false) (hrole : place.role =
      childRole .refExpression (roleIn fs) ⟨f.first, f.follows .dot⟩ f.last true) :
    identifierStyle place =
      if f.follows .dot && f.last && fs.head?.any calls then .functionCall
      else if onName f && leadsToCallee fs then .namespaceName
      else .variable := by
  have honly : f.first = true → f.last = false := not_last_of_first h ht hdeclared hkind
  rw [identifierStyle, hplace, hrole, onName]
  rcases roleIn_cases fs with ⟨hrole, hcalls, hleads⟩ | ⟨hrole, hcalls, hleads⟩ |
    ⟨hrole, hcalls, hleads⟩
  all_goals
    rw [hrole, hcalls, hleads]
    cases hfirst : f.first with
    | false => cases f.follows .dot <;> cases f.last <;> rfl
    | true =>
      rw [honly hfirst]
      cases f.follows .dot <;> rfl

/-- The style of an identifier is told by its place. -/
theorem identifierStyle_placeIn {x : Token} (h : Formed false [plug fs (.leaf .identifier x)]) :
    identifierStyle (placeIn fs true) = styleIn fs := by
  cases fs with
  | nil => rfl
  | cons f fs =>
    have hdeclared := declared_placeIn (f :: fs) true
    have hrole : (placeIn (f :: fs) true).role =
        childRole f.kind (placeIn fs false).role ⟨f.first, f.follows .dot⟩ f.last true := rfl
    rw [styleIn, namesRule, isCalled, qualifies, calls]
    cases hkind : f.kind
    case refExpression =>
      rw [hkind] at hrole
      cases hd : isDeclared (f :: fs) with
      | true =>
        rw [identifierStyle, hdeclared, hd, hrole]
        cases f.first <;> cases f.follows .dot <;> cases f.last <;>
          cases (placeIn fs false).role <;> rfl
      | false =>
        have houter : isDeclared fs = false := (Bool.or_eq_false_iff.mp hd).2
        rw [role_placeIn h houter] at hrole
        exact identifierStyle_reference h rfl hkind houter (hdeclared.trans hd) hrole
    case ruleHead =>
      rw [identifierStyle, hdeclared, hrole, hkind, onName]
      cases f.first <;> cases f.follows .dot <;> cases isDeclared (f :: fs) <;> rfl
    case callExpression =>
      rw [identifierStyle, hdeclared, hrole, hkind]
      cases f.first <;> cases isDeclared (f :: fs) <;> rfl
    all_goals
      rw [identifierStyle, hdeclared, hrole, hkind]
      cases isDeclared (f :: fs) <;> rfl

/-! ### Indexes and callees -/

def References (path : List Frame) : Prop :=
  ∀ f ∈ path, f.kind = .refExpression

theorem not_calls_of_reference (hkind : f.kind = .refExpression) : calls f = false := by
  rw [calls, hkind]
  rfl

/-- From what follows an opening bracket no way through references leads to a callee. -/
theorem not_leadsToCallee_of_index {path : List Frame} {g : Frame} (hpath : References path)
    (hindex : g.follows .lbracket = true) : leadsToCallee (path ++ g :: fs) = false := by
  have hfirst := Frame.not_first_of_follows hindex
  induction path with
  | nil => rw [List.nil_append, leadsToCallee, calls, hfirst, Bool.and_false, Bool.and_false]; rfl
  | cons f path ih =>
    obtain ⟨hf, hpath⟩ := List.forall_mem_cons.mp hpath
    rw [List.cons_append, leadsToCallee, not_calls_of_reference hf, ih hpath, Bool.and_false,
      Bool.or_false]

theorem styleIn_index {path : List Frame} {g : Frame} (hpath : References path)
    (hindex : g.follows .lbracket = true) : styleIn (path ++ g :: fs) =
      if isDeclared (path ++ g :: fs) then .namespaceName else .variable := by
  have hfirst := Frame.not_first_of_follows hindex
  have hname : onName g = false := by
    rw [onName, hfirst, Frame.not_follows_of_follows hindex (by decide)]
    rfl
  have hcalls : calls g = false := by rw [calls, hfirst, Bool.and_false]
  have hparts : namesRule (path ++ g :: fs) = false ∧ isCalled (path ++ g :: fs) = false ∧
      qualifies (path ++ g :: fs) = false := by
    cases path with
    | nil =>
      rw [List.nil_append, namesRule, isCalled, qualifies, hname, hcalls,
        Frame.not_follows_of_follows hindex (by decide)]
      simp only [Bool.and_false, Bool.false_and, Bool.or_self, and_self]
    | cons f path =>
      obtain ⟨hf, hpath⟩ := List.forall_mem_cons.mp hpath
      have hnext : (path ++ g :: fs).head?.any calls = false := by
        cases path with
        | nil => exact hcalls
        | cons f' path => exact not_calls_of_reference (hpath f' List.mem_cons_self)
      rw [List.cons_append, namesRule, isCalled, qualifies, hnext, not_calls_of_reference hf,
        not_leadsToCallee_of_index hpath hindex, hf]
      simp only [Bool.and_false, Bool.or_self, and_true]
      rfl
  rw [styleIn, hparts.1, hparts.2.1, hparts.2.2]
  cases isDeclared (path ++ g :: fs) <;> rfl

/-- Of a callee only the callee itself or its last part is called. -/
theorem path_of_isCalled {path : List Frame} {g : Frame} (hpath : References path)
    (h : isCalled (path ++ g :: fs) = true) : path = [] ∨ ∃ f, path = [f] ∧ f.last = true := by
  cases path with
  | nil => exact .inl rfl
  | cons f path =>
    obtain ⟨hf, hpath⟩ := List.forall_mem_cons.mp hpath
    rw [List.cons_append, isCalled, not_calls_of_reference hf, Bool.false_or, Bool.and_eq_true,
      Bool.and_eq_true] at h
    obtain ⟨⟨-, hlast⟩, hnext⟩ := h
    cases path with
    | nil => exact .inr ⟨f, rfl, hlast⟩
    | cons f' path =>
      have hcalls : calls f' = true := hnext
      rw [not_calls_of_reference (hpath f' List.mem_cons_self)] at hcalls
      cases hcalls

theorem isCalled_of_styleIn (h : styleIn fs = .functionCall) : isCalled fs = true := by
  by_contra hcalled
  rw [styleIn, if_neg hcalled] at h
  split at h
  · cases h
  · split at h
    · cases h
    · split at h <;> cases h

/-- Two names that are called in one callee stand in the same place. -/
theorem called_unique {path path' : List Frame} {g g' : Frame} {x x' : Token}
    (h : Formed false [plug (path ++ g :: fs) (.leaf .identifier x)])
    (hsame : plug (path ++ g :: fs) (.leaf .identifier x) =
      plug (path' ++ g' :: fs) (.leaf .identifier x'))
    (hpath : References path) (hpath' : References path') (hg : calls g = true)
    (hg' : calls g' = true) (hcalled : isCalled (path ++ g :: fs) = true)
    (hcalled' : isCalled (path' ++ g' :: fs) = true) : path = path' ∧ g = g' ∧ x = x' := by
  have h' := hsame ▸ h
  have hcallee : g.fill (plug path (.leaf .identifier x)) =
      g'.fill (plug path' (.leaf .identifier x')) := by
    rw [Tree.plug_append, Tree.plug_append] at hsame
    exact Tree.plug_injective hsame
  have hfirst := (Bool.and_eq_true_iff.mp hg).2
  have hfirst' := (Bool.and_eq_true_iff.mp hg').2
  rcases path_of_isCalled hpath hcalled with rfl | ⟨f, rfl, hlast⟩ <;>
    rcases path_of_isCalled hpath' hcalled' with rfl | ⟨f', rfl, hlast'⟩
  · obtain ⟨rfl, hleaf⟩ := Frame.eq_of_first hcallee hfirst hfirst' rfl rfl
    rw [plug, plug, Tree.leaf.injEq] at hleaf
    exact ⟨rfl, rfl, hleaf.2⟩
  · obtain ⟨-, hleaf⟩ := Frame.eq_of_first hcallee hfirst hfirst' rfl h'.fill_not_trivia
    cases hleaf
  · obtain ⟨-, hleaf⟩ := Frame.eq_of_first hcallee hfirst hfirst' h.fill_not_trivia rfl
    cases hleaf
  · obtain ⟨rfl, hfill⟩ :=
      Frame.eq_of_first hcallee hfirst hfirst' h.fill_not_trivia h'.fill_not_trivia
    obtain ⟨rfl, hleaf⟩ := Frame.eq_of_last hfill hlast hlast' rfl rfl
    rw [Tree.leaf.injEq] at hleaf
    exact ⟨rfl, rfl, hleaf.2⟩

/-! ### Whole texts -/

def stylesOf (tree : Tree) (x : Token) : List Style :=
  ((spans tree).filter fun s => s.range == (x.start, x.stop)).map (·.style)

/-- Every identifier of a tree stands in a place, and has the one style that its place tells. So no
index names a function, whatever it is an index of, and of a callee at most one name is called. -/
structure NamesStyled (tree : Tree) : Prop where
  placed : ∀ x ancestors, (.leaf .identifier x, ancestors) ∈ tree.walk [] →
    ∃ fs, plug fs (.leaf .identifier x) = tree ∧ Tree.above fs (.leaf .identifier x) = ancestors
  styled : ∀ fs x, plug fs (.leaf .identifier x) = tree → stylesOf tree x = [styleIn fs]
  index : ∀ path g fs x, plug (path ++ g :: fs) (.leaf .identifier x) = tree → References path →
    g.follows .lbracket = true →
      stylesOf tree x = [if isDeclared (path ++ g :: fs) then .namespaceName else .variable]
  called : ∀ path path' g g' fs x x', plug (path ++ g :: fs) (.leaf .identifier x) = tree →
    plug (path' ++ g' :: fs) (.leaf .identifier x') = tree → References path → References path' →
    calls g = true → calls g' = true → stylesOf tree x = [.functionCall] →
    stylesOf tree x' = [.functionCall] → path = path' ∧ g = g' ∧ x = x'

/-- Among spans that follow one another one alone has its range. -/
theorem filter_range {pre post : List Span} {s : Span}
    (hordered : (pre ++ s :: post).Pairwise fun a b => a.stop ≤ b.start)
    (hnonempty : ∀ r ∈ pre ++ s :: post, r.start < r.stop) :
    (pre ++ s :: post).filter (fun r => r.range == (s.start, s.stop)) = [s] := by
  obtain ⟨-, hlater, hearlier⟩ := List.pairwise_append.mp hordered
  obtain ⟨hlater, -⟩ := List.pairwise_cons.mp hlater
  have hlong := hnonempty s (List.mem_append_right _ List.mem_cons_self)
  have hpre : pre.filter (fun r => r.range == (s.start, s.stop)) = [] := by
    refine List.filter_eq_nil_iff.mpr fun r hr heq => ?_
    have hbefore := hearlier r hr s List.mem_cons_self
    have hrange := Prod.mk.inj (beq_iff_eq.mp heq)
    omega
  have hpost : post.filter (fun r => r.range == (s.start, s.stop)) = [] := by
    refine List.filter_eq_nil_iff.mpr fun r hr heq => ?_
    have hbehind := hlater r hr
    have hrange := Prod.mk.inj (beq_iff_eq.mp heq)
    omega
  have hself : (s.range == (s.start, s.stop)) = true := beq_self_eq_true s.range
  rw [List.filter_append, hpre, List.filter_cons, if_pos hself, hpost, List.nil_append]

theorem stylesOf_parse {source : String} {x : Token}
    (h : plug fs (.leaf .identifier x) = Grammar.parse source) :
    stylesOf (Grammar.parse source) x = [styleIn fs] := by
  have hformed : Formed false [plug fs (.leaf .identifier x)] := h ▸ Grammar.formed_parse source
  obtain ⟨pre, post, hspans⟩ := spans_plug fs (.leaf .identifier x)
  have hstyle : spansAt (placeIn fs true) (.leaf .identifier x) =
      [⟨x.start, x.stop, styleIn fs⟩] := by
    rw [← identifierStyle_placeIn hformed]
    rfl
  have hordered := ordered_parse source
  have hnonempty := nonempty_parse source
  rw [h, show (Tree.leaf .identifier x).isLeaf = true from rfl, hstyle, List.append_assoc,
    List.singleton_append] at hspans
  rw [hspans] at hordered hnonempty
  rw [stylesOf, hspans]
  exact congrArg (List.map (·.style)) (filter_range hordered hnonempty)

/-- Whatever the text, the place of an identifier tells its style. -/
theorem names_styled_parse (source : String) : NamesStyled (Grammar.parse source) where
  placed _ _ hwalk := Tree.exists_plug_of_mem_walk hwalk
  styled _ _ hplug := stylesOf_parse hplug
  index path g fs x hplug hpath hindex := by
    rw [stylesOf_parse hplug, styleIn_index hpath hindex]
  called path path' g g' fs x x' hplug hplug' hpath hpath' hg hg' hstyle hstyle' := by
    rw [stylesOf_parse hplug] at hstyle
    rw [stylesOf_parse hplug'] at hstyle'
    have hformed := hplug.symm ▸ Grammar.formed_parse source
    exact called_unique hformed (hplug.trans hplug'.symm) hpath hpath' hg hg'
      (isCalled_of_styleIn (List.singleton_inj.mp hstyle))
      (isCalled_of_styleIn (List.singleton_inj.mp hstyle'))

end PolicyEditor.Highlight
