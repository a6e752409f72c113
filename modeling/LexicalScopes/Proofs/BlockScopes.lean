import LexicalScopes.Proofs.Run.Declaring
import LexicalScopes.Proofs.Samples

/-!
# Names that belong to a block

The names that `let`, `const`, `using`, a class or a function declares belong to the block, the
switch or the loop head in which they stand. They are declared in a scope of that statement exactly
if the statement opens one and the builder still stands there when it reaches the declaration.
-/

namespace LexicalScopes

/-! ## Block names -/

namespace Node

/-- The names that a declarator binds. -/
def targetNames (declarator : Json) : Except Cause (List BoundName) := do
  (boundNames (← declaratorTarget declarator)).mapM id

/-- The names that a variable declaration binds. -/
def variableNames (n : Node) : Except Cause (List BoundName) := do
  let names ← (← (n.get "declarations").entries).mapM targetNames
  return names.flatten

/-- The names that a declaration binds in the block around it. A `var` binds none there. -/
def blockNames (n : Node) : Except Cause (List BoundName) := do
  if n.isAny ["VariableDeclaration"] then
    if (← n.declarationKind) = .var then return [] else n.variableNames
  else if n.isAny ["ClassDeclaration", "FunctionDeclaration"] then
    match n.identifier? with
    | some identifier => return [← identifier.boundName]
    | none => return []
  else return []

end Node

/-- The actions go nowhere but inwards, and before that they declare the name. -/
structure DeclareFirst (actions : List Action) (bound : BoundName) : Prop where
  inner : ∀ a ∈ actions, a.isInner = true
  split : ∃ first a rest, actions = first ++ a :: rest ∧
    (∀ x ∈ first, x.keepsPlace = true) ∧ a.declaresHere bound

section Declarations

variable {n : Node} {p : Path} {actions : List Action} {bound : BoundName} {names : List BoundName}
  {kind : BindingKind}

theorem isInner_of_declareTarget {target : Json} (h : declareTarget target kind = .ok actions) :
    ∀ a ∈ actions, a.isInner = true := by
  obtain ⟨names, -, h⟩ := bind_eq_ok.1 h
  cases h
  intro a ha
  obtain ⟨bound, -, rfl⟩ := List.mem_map.1 ha
  rfl

/-- A declaration other than `var` declares its names in place. -/
theorem variableActions_eq (hkind : n.declarationKind = .ok kind) (hvar : kind ≠ .var) :
    n.variableActions = n.variableNames >>= fun names => .ok (names.map (.declare · kind)) := by
  unfold Node.variableActions Node.variableNames
  rw [hkind, ok_bind]
  cases (n.get "declarations").entries with
  | error fault => rfl
  | ok declarators =>
    rw [ok_bind, ok_bind, mapM_map_eq (f := Node.targetNames) (List.map (.declare · kind))]
    · cases declarators.mapM Node.targetNames with
      | error fault => rfl
      | ok names =>
        simp only [ok_bind]
        rw [← List.map_flatten]
        rfl
    · intro declarator
      unfold Node.targetNames
      cases Node.declaratorTarget declarator with
      | error fault => rfl
      | ok target =>
        rw [ok_bind, ok_bind, if_neg hvar]
        rfl

theorem declareFirst_of_variableActions (htype : n.isAny ["VariableDeclaration"] = true)
    (hnames : n.blockNames = .ok names) (hbound : bound ∈ names)
    (h : n.variableActions = .ok actions) : DeclareFirst actions bound := by
  rw [Node.blockNames, if_pos htype] at hnames
  obtain ⟨kind, hkind, hnames⟩ := bind_eq_ok.1 hnames
  split at hnames
  · cases hnames
    cases hbound
  · -- All names are declared in place, the wanted one among them.
    rename_i hvar
    rw [variableActions_eq hkind hvar, hnames, ok_bind] at h
    cases h
    constructor
    · intro a ha
      obtain ⟨bound', -, rfl⟩ := List.mem_map.1 ha
      rfl
    · obtain ⟨first, rest, rfl⟩ := List.append_of_mem hbound
      refine ⟨first.map (.declare · kind), .declare bound kind, rest.map (.declare · kind), ?_, ?_,
        .inl ⟨kind, rfl⟩⟩
      · rw [List.map_append, List.map_cons]
      · intro x hx
        obtain ⟨bound', -, rfl⟩ := List.mem_map.1 hx
        rfl

theorem declareFirst_of_classActions {identifier : Node}
    (htype : n.isAny ["ClassDeclaration"] = true) (hid : n.identifier? = some identifier)
    (hbound : identifier.boundName = .ok bound) (h : n.classActions = .ok actions) :
    DeclareFirst actions bound := by
  unfold Node.classActions at h
  simp only [hid, htype, if_true] at h
  obtain ⟨bound', hbound', h⟩ := bind_eq_ok.1 h
  obtain ⟨loc, -, h⟩ := bind_eq_ok.1 h
  rw [hbound] at hbound'
  cases hbound'
  cases h
  exact ⟨by simp [Action.isInner], [], _, _, rfl, by simp, .inl ⟨.lexical, rfl⟩⟩

theorem declareFirst_of_functionActions {identifier : Node}
    (htype : p.node.isAny ["FunctionDeclaration"] = true)
    (hid : p.node.identifier? = some identifier) (hbound : identifier.boundName = .ok bound)
    (h : p.functionActions = .ok actions) : DeclareFirst actions bound := by
  obtain ⟨own, hown, h⟩ := bind_eq_ok.1 h
  obtain ⟨name, -, h⟩ := bind_eq_ok.1 h
  obtain ⟨range, -, h⟩ := bind_eq_ok.1 h
  obtain ⟨params, hparams, h⟩ := bind_eq_ok.1 h
  cases h
  have hexpression : p.node.isAny ["FunctionExpression"] = false :=
    Node.isAny_eq_false htype (by decide)
  unfold Node.ownNameActions at hown
  simp only [hid, hexpression, htype, if_true] at hown
  obtain ⟨bound', hbound', hown⟩ := bind_eq_ok.1 hown
  rw [hbound] at hbound'
  cases hbound'
  cases hown
  refine ⟨?_, [], _, _, rfl, by simp, .inr rfl⟩
  -- The parameters are declared in the new scope, and they do not hoist.
  have hinner : ∀ a ∈ params, a.isInner = true := by
    obtain ⟨targets, -, hparams⟩ := bind_eq_ok.1 hparams
    obtain ⟨declared, hdeclared, hparams⟩ := bind_eq_ok.1 hparams
    cases hparams
    intro a ha
    rcases List.mem_append.1 ha with ha | ha
    · obtain ⟨targetActions, hmem, ha⟩ := List.mem_flatten.1 ha
      obtain ⟨target, -, htarget⟩ := exists_of_mem_mapM hdeclared hmem
      exact isInner_of_declareTarget htarget a ha
    · split at ha
      · cases ha
      · rw [List.mem_singleton.1 ha]
        rfl
  intro a ha
  rcases List.mem_cons.1 ha with rfl | ha
  · rfl
  rcases List.mem_cons.1 ha with rfl | ha
  · rfl
  exact hinner a ha

theorem blockNames_cases (hnames : n.blockNames = .ok names) (hbound : bound ∈ names) :
    n.isAny ["VariableDeclaration"] = true ∨
      ∃ identifier, n.identifier? = some identifier ∧ identifier.boundName = .ok bound ∧
        (n.isAny ["ClassDeclaration"] = true ∨ n.isAny ["FunctionDeclaration"] = true) := by
  cases hvariable : n.isAny ["VariableDeclaration"] with
  | true => exact .inl rfl
  | false =>
    refine .inr ?_
    rw [Node.blockNames, if_neg (Bool.eq_false_iff.1 hvariable)] at hnames
    split at hnames
    · rename_i htype
      split at hnames
      · rename_i identifier hid
        obtain ⟨bound', hbound', hnames⟩ := bind_eq_ok.1 hnames
        cases hnames
        cases List.mem_singleton.1 hbound
        have heither : n.isAny (["ClassDeclaration"] ++ ["FunctionDeclaration"]) = true := htype
        rw [Node.isAny_append, Bool.or_eq_true] at heither
        exact ⟨identifier, hid, hbound', heither⟩
      · cases hnames
        cases hbound
    · cases hnames
      cases hbound

/-- A declaration declares its block names before it goes into scopes of its own. -/
theorem declareFirst_of_roleActions (hnames : p.node.blockNames = .ok names)
    (hbound : bound ∈ names) (h : p.roleActions = .ok actions) : DeclareFirst actions bound := by
  unfold Path.roleActions at h
  rcases blockNames_cases hnames hbound with htype | ⟨identifier, hid, hname, htype | htype⟩
  · rw [Node.role?_of_isAny (r := .variables) (by decide) htype] at h
    exact declareFirst_of_variableActions htype hnames hbound h
  · rw [Node.role?_of_isAny (r := .classScope) (by decide) htype] at h
    exact declareFirst_of_classActions htype hid hname h
  · rw [Node.role?_of_isAny (r := .function) (by decide) htype] at h
    exact declareFirst_of_functionActions htype hid hname h

/-- Entering a declaration declares its block names before anything else. -/
theorem declareFirst_of_enter {b b' : Builder} (hplace : p.key? ≠ some "value")
    (hnames : p.node.blockNames = .ok names) (hbound : bound ∈ names)
    (h : b.replay p.enterActions = .ok b') : DeclareFirst p.enterActions bound := by
  -- The node is no value of a class field, so only its role acts.
  have hchild : p.isChildOf NodeType.classFields "value" = false :=
    Path.isChildOf_eq_false hplace
  have hown : ∀ actions, p.ownActions = .ok actions → DeclareFirst actions bound := by
    intro actions hactions
    unfold Path.ownActions at hactions
    simp only [hchild] at hactions
    obtain ⟨field, hfield, hactions⟩ := bind_eq_ok.1 hactions
    obtain ⟨rest, hrest, hactions⟩ := bind_eq_ok.1 hactions
    cases hfield
    cases hactions
    exact declareFirst_of_roleActions hnames hbound hrest
  cases Builder.enters_of_replay h with
  | program hp hactions hopens henter hexit =>
    rw [Path.isProgram] at hp
    exfalso
    rcases blockNames_cases hnames hbound with htype | ⟨identifier, -, -, htype | htype⟩
    all_goals
      rw [Node.isAny_eq_false htype (by decide)] at hp
      cases hp
  | through hp hactions hown' henter hexit =>
    rw [henter]
    exact hown _ hactions
  | inside hp hactions hown' henter hexit =>
    rw [henter]
    obtain ⟨hinner, first, a, rest, rfl, hkeeps, ha⟩ := hown _ hactions
    refine ⟨?_, .mark :: first, a, rest, rfl, ?_, ha⟩
    · intro x hx
      rcases List.mem_cons.1 hx with rfl | hx
      · rfl
      · exact hinner x hx
    · intro x hx
      rcases List.mem_cons.1 hx with rfl | hx
      · rfl
      · exact hkeeps x hx

end Declarations

/-! ## Statements with names of their own -/

/-- Statements that block names can belong to. -/
def NodeType.statements : List String :=
  ["BlockStatement", "StaticBlock", "SwitchStatement"] ++ NodeType.loops

namespace Path

/-- The statement opens a scope that its block names can go to. The value of a class field always
does. Otherwise a block looks for a block name unless it is the body of a function, a switch or a
loop looks only for `let` and `const`, and a static block for nothing. -/
def opensBlock (p : Path) : Bool :=
  p.isChildOf NodeType.classFields "value"
    || (p.node.isAny ["BlockStatement"] && !p.isChildOf NodeType.functions "body"
        && p.node.statements.any Json.declaresInBlock)
    || (p.node.isAny ["SwitchStatement"]
        && p.node.switchStatements.any Json.isLexicalDeclaration)
    || (p.node.isAny NodeType.loops && p.node.loopHead.isLexicalDeclaration)

/-- The node `c` stands directly in the statement `p`: in its list of statements, in one of its
cases, or in its head. Between entering `p` and entering `c` there are the events `between`, which
walk the nodes `earlier`. -/
inductive StandsIn (p : Path) : List Event → List Path → Path → Prop where
  | statement {earlier later : List Path} {c : Path}
      (htype : p.node.isAny ["BlockStatement", "StaticBlock"] = true)
      (hkids : p.kids = earlier ++ c :: later) (hkey : c.key? = some "body") :
      StandsIn p (allEvents earlier) earlier c
  | case {earlier later earlier' later' : List Path} {case c : Path}
      (htype : p.node.isAny ["SwitchStatement"] = true)
      (hkids : p.kids = earlier ++ case :: later) (hcaseKey : case.key? = some "cases")
      (hcase : case.node.isAny ["SwitchCase"] = true)
      (hkids' : case.kids = earlier' ++ c :: later') (hkey : c.key? = some "consequent") :
      StandsIn p (allEvents earlier ++ .enter case :: allEvents earlier') (earlier ++ earlier') c
  | head {earlier later : List Path} {c : Path} (htype : p.node.isAny NodeType.loops = true)
      (hkids : p.kids = earlier ++ c :: later)
      (hkey : c.key? = some "init" ∨ c.key? = some "left") :
      StandsIn p (allEvents earlier) earlier c

end Path

section Statements

variable {root : Node} {past between : List Event} {around : List ScopeId} {p c : Path}
  {earlier : List Path} {n : Node} {reason : Bool} {type : ScopeType} {label : String}
  {headings : List Heading} {b b' : Builder}

theorem Path.StandsIn.isAny_statements (h : p.StandsIn between earlier c) :
    p.node.isAny NodeType.statements = true := by
  cases h with
  | statement htype hkids hkey => exact Node.isAny_mono htype (by decide)
  | case htype hkids hcaseKey hcase hkids' hkey => exact Node.isAny_mono htype (by decide)
  | head htype hkids hkey => exact Node.isAny_mono htype (by decide)

theorem Path.StandsIn.key?_ne (h : p.StandsIn between earlier c) : c.key? ≠ some "value" := by
  cases h with
  | statement htype hkids hkey => simp [hkey]
  | case htype hkids hcaseKey hcase hkids' hkey => simp [hkey]
  | head htype hkids hkey => rcases hkey with hkey | hkey <;> simp [hkey]

/-- A node that stands in a visited statement is visited. -/
theorem Path.StandsIn.exists_visit (h : p.StandsIn between earlier c)
    (hvisit : Visit root past around p) :
    ∃ around', Visit root (past ++ .enter p :: between) around' c := by
  cases h with
  | statement htype hkids hkey => exact ⟨_, hvisit.child hkids⟩
  | case htype hkids hcaseKey hcase hkids' hkey =>
    have hchild := (hvisit.child hkids).child hkids'
    rw [List.append_assoc, List.cons_append] at hchild
    exact ⟨_, hchild⟩
  | head htype hkids hkey => exact ⟨_, hvisit.child hkids⟩

/-! ## Whether a statement opens a scope -/

theorem length_coveringIf (h : n.coveringIf reason type label = .ok headings) :
    0 < headings.length ↔ reason = true := by
  cases reason with
  | false =>
    cases h
    simp
  | true =>
    rw [Node.coveringIf, if_pos rfl] at h
    obtain ⟨heading, -, h⟩ := bind_eq_ok.1 h
    cases h
    simp

theorem length_loopScopes (h : n.loopScopes = .ok headings) :
    0 < headings.length ↔ n.loopHead.isLexicalDeclaration = true := by
  unfold Node.loopScopes at h
  split at h
  · rename_i declaration hlexical hhead
    obtain ⟨start, -, h⟩ := bind_eq_ok.1 h
    obtain ⟨loc, -, h⟩ := bind_eq_ok.1 h
    cases h
    simp [hlexical]
  · rename_i hnot
    cases h
    constructor
    · intro hlt
      cases hlt
    · intro hlexical
      obtain ⟨declaration, hhead⟩ : ∃ declaration, n.loopHead.node? = some declaration := by
        rw [Json.isLexicalDeclaration, Bool.and_eq_true, Json.isAny] at hlexical
        split at hlexical
        · exact ⟨_, ‹_›⟩
        · cases hlexical.1
      exact absurd hhead (hnot declaration hlexical)

/-- Of the statements, blocks, switches and loops open scopes for what they hold. -/
theorem length_typeScopes (htype : p.node.isAny NodeType.statements = true)
    (h : p.typeScopes = .ok headings) :
    0 < headings.length ↔
      ((p.node.isAny ["BlockStatement"] && !p.isChildOf NodeType.functions "body"
          && p.node.statements.any Json.declaresInBlock)
        || (p.node.isAny ["SwitchStatement"]
            && p.node.switchStatements.any Json.isLexicalDeclaration)
        || (p.node.isAny NodeType.loops && p.node.loopHead.isLexicalDeclaration)) = true := by
  obtain ⟨t, ht, heq⟩ := Node.isAny_iff.1 htype
  have hany : ∀ types, p.node.isAny types = types.contains t := by
    intro types
    rw [Node.isAny, heq]
  simp only [NodeType.statements, NodeType.loops, List.cons_append, List.nil_append, List.mem_cons,
    List.not_mem_nil, or_false] at ht
  -- The type decides which scopes can be opened at all.
  rcases ht with rfl | rfl | rfl | hloop
  · have hscopes : p.node.coveringIf (!p.isChildOf NodeType.functions "body"
        && p.node.statements.any Json.declaresInBlock) .block "Block" = .ok headings := by
      simpa [Path.typeScopes, hany, NodeType.functions, NodeType.classes, NodeType.loops] using h
    simpa [hany, NodeType.loops] using length_coveringIf hscopes
  · have hscopes : (pure [] : Except Cause (List Heading)) = .ok headings := by
      simpa [Path.typeScopes, hany, NodeType.functions, NodeType.classes, NodeType.loops] using h
    rw [← pure_eq_ok.1 hscopes]
    simp [hany, NodeType.loops]
  · have hscopes : p.node.coveringIf (p.node.switchStatements.any Json.isLexicalDeclaration) .block
        "Switch" = .ok headings := by
      simpa [Path.typeScopes, hany, NodeType.functions, NodeType.classes, NodeType.loops] using h
    simpa [hany, NodeType.loops] using length_coveringIf hscopes
  · have hscopes : p.node.loopScopes = .ok headings := by
      rcases hloop with rfl | rfl | rfl
      all_goals
        simpa [Path.typeScopes, hany, NodeType.functions, NodeType.classes, NodeType.loops] using h
    have hlength := length_loopScopes hscopes
    rcases hloop with rfl | rfl | rfl
    all_goals simpa [hany, NodeType.loops] using hlength

/-- A statement makes scopes exactly if it opens one for its block names. -/
theorem scopeCount_pos_iff (htype : p.node.isAny NodeType.statements = true)
    (h : b.replay p.enterActions = .ok b') : 0 < p.scopeCount ↔ p.opensBlock = true := by
  have hp : p.isProgram = false := Node.isAny_eq_false htype (by decide)
  obtain ⟨headings, hcontributed, hcount⟩ :=
    Builder.exists_contributed hp (Node.isAny_eq_false htype (by decide)) h
  obtain ⟨field, hfield, hcontributed⟩ := bind_eq_ok.1 hcontributed
  obtain ⟨own, hown, hcontributed⟩ := bind_eq_ok.1 hcontributed
  cases hcontributed
  have hfirst := length_coveringIf hfield
  have hsecond := length_typeScopes htype hown
  rw [hcount, List.length_append, Path.opensBlock, Bool.or_assoc, Bool.or_assoc, Bool.or_eq_true,
    ← hfirst, ← Bool.or_assoc, ← hsecond]
  omega

end Statements

/-! ## Where block names are declared -/

section Places

variable {root : Node} {final before outer inside after : Builder} {past between : List Event}
  {around : List ScopeId} {p c : Path} {earlier : List Path}

/-- Entering a case does nothing. -/
theorem enterActions_switchCase {case : Path} (htype : case.node.isAny ["SwitchCase"] = true)
    (hkey : case.key? = some "cases") : case.enterActions = [] := by
  have hp : case.isProgram = false := Node.isAny_eq_false htype (by decide)
  have hplace : case.isChildOf NodeType.classFields "value" = false :=
    Path.isChildOf_eq_false (by simp [hkey])
  have hrole : case.node.role? = none := by
    obtain ⟨t, ht, htype⟩ := Node.isAny_iff.1 htype
    rw [List.mem_singleton.1 ht] at htype
    rw [Node.role?, htype]
    decide
  have hown : case.ownActions = .ok [] := by
    unfold Path.ownActions Path.roleActions
    simp only [hplace, hrole]
    rfl
  simp [Path.enterActions, hp, hown, Action.attempt]

/-- On the way to a node inside a statement only the earlier nodes can move the builder. -/
theorem Path.StandsIn.lands (h : p.StandsIn between earlier c)
    (hrun : inside.run between = .ok before) :
    Builder.Lands inside before (∃ q ∈ earlier, q.Drifts) := by
  cases h with
  | statement htype hkids hkey => exact Builder.lands_all hrun
  | head htype hkids hkey => exact Builder.lands_all hrun
  | @case earlier later earlier' later' case c htype hkids hcaseKey hcase hkids' hkey =>
    -- First the earlier cases are walked, then this one is entered, then its earlier statements.
    obtain ⟨b₁, hfirst, hrun⟩ := Builder.run_append_eq_ok.1 hrun
    obtain ⟨b₂, henter, hsecond⟩ := Builder.run_cons_eq_ok.1 hrun
    have hland := Builder.lands_all hfirst
    have hland' := Builder.lands_all hsecond
    have hthrough : Builder.Lands b₁ b₂ False := by
      rw [Event.actions, enterActions_switchCase hcase hcaseKey] at henter
      cases henter
      exact ⟨rfl, fun _ => rfl, False.elim⟩
    have hnext := Builder.nextScope_le_run hfirst
    have hnext' : b₁.graph.nextScope ≤ b₂.graph.nextScope := by
      rw [Builder.nextScope_replay henter]
      exact Nat.le_add_right _ _
    refine ((hland.trans hthrough hnext).trans hland' (Nat.le_trans hnext hnext')).congr ?_
    simp [or_and_right, exists_or]

/-- Before a node inside a statement the builder stands in a scope of the statement exactly if the
statement opens one and no earlier node moves the builder away. -/
theorem Path.StandsIn.mem_ownScopes_iff {s : ScopeId} (h : p.StandsIn between earlier c)
    (hstatement : Passes past p outer inside before) (hrun : inside.run between = .ok before)
    (hs : before.current = some s) :
    s ∈ p.ownScopes past ↔ p.opensBlock = true ∧ ∀ q ∈ earlier, ¬ q.Drifts := by
  have hland := h.lands hrun
  have hcount := scopeCount_pos_iff h.isAny_statements hstatement.run_enter
  by_cases hdrift : ∃ q ∈ earlier, q.Drifts
  · -- The builder was moved to a scope made after those of the statement.
    obtain ⟨r, hr, hle⟩ := hland.away hdrift
    rw [hs] at hr
    cases hr
    rw [hstatement.nextScope_after] at hle
    constructor
    · intro hmem
      exact absurd (Path.mem_ownScopes.1 hmem).2 (Nat.not_lt.2 hle)
    · rintro ⟨-, hstays⟩
      obtain ⟨q, hq, hdrifts⟩ := hdrift
      exact absurd hdrifts (hstays q hq)
  · -- The builder is back where it stood when the statement was entered.
    have hcurrent := hland.back hdrift
    rw [hs, inside.current_eq_head?_around, hstatement.around_after] at hcurrent
    have hstays : ∀ q ∈ earlier, ¬ q.Drifts := fun q hq hdrifts => hdrift ⟨q, hq, hdrifts⟩
    cases hown : p.ownScopes past with
    | nil =>
      have hzero := Path.ownScopes_eq_nil_iff.1 hown
      constructor
      · intro hmem
        cases hmem
      · rintro ⟨hopens, -⟩
        have hpos := hcount.2 hopens
        rw [hzero] at hpos
        cases hpos
    | cons t ts =>
      rw [hown, List.cons_append, List.head?_cons] at hcurrent
      cases hcurrent
      constructor
      · intro _
        refine ⟨hcount.1 (Nat.pos_of_ne_zero ?_), hstays⟩
        intro hzero
        rw [Path.ownScopes_eq_nil_iff.2 hzero] at hown
        cases hown
      · intro _
        exact List.mem_cons_self

/-- A block name is declared where the builder stands, and in no other scope made by then. -/
theorem Passes.declares_blockName_iff {bound : BoundName} {names : List BoundName}
    (h : Passes past c before after final) (hplace : c.key? ≠ some "value")
    (hnames : c.node.blockNames = .ok names) (hbound : bound ∈ names) :
    ∃ s, before.current = some s ∧ ∀ t < before.graph.nextScope,
      (Graph.Declares before.graph after.graph final.graph t bound ↔ t = s) := by
  obtain ⟨hinner, first, a, rest, hactions, hkeeps, ha⟩ :=
    declareFirst_of_enter hplace hnames hbound h.run_enter
  have hreplay := h.run_enter
  rw [hactions] at hreplay
  obtain ⟨s, hs, hdeclares⟩ :=
    Builder.declares_of_replay hreplay h.sound_before hkeeps ha h.grows_rest
  refine ⟨s, hs, ?_⟩
  intro t ht
  constructor
  · intro hdeclared
    by_contra hts
    -- The actions go only inwards, so they touch no other scope that exists already.
    have huntouched : Graph.Untouched before.graph after.graph t := by
      refine Builder.untouched_of_isInner h.run_enter h.sound_before hinner (Nat.le_refl _) ?_
        hts ht
      intro u hu
      rw [hs] at hu
      cases hu
      exact .inl rfl
    exact huntouched.not_declares h.sound_after.valid.owns h.sound_final.valid.owns h.grows_rest
      hdeclared
  · rintro rfl
    exact hdeclares

/-- A block name is declared in a scope of the statement that it belongs to, and in none made
before, exactly if the statement opens a scope and no node before the declaration moves the
builder away. -/
theorem declared_in_own_scope_iff {bound : BoundName} {names : List BoundName}
    (hfinal : collect (.object root) = .ok final) (hvisit : Visit root past around p)
    (hstands : p.StandsIn between earlier c) (hnames : c.node.blockNames = .ok names)
    (hbound : bound ∈ names) :
    ∃ before after, Passes (past ++ .enter p :: between) c before after final ∧
      ((∃ t ∈ p.ownScopes past, Graph.Declares before.graph after.graph final.graph t bound) ∧
          (∀ t < scopesMade past,
            ¬ Graph.Declares before.graph after.graph final.graph t bound) ↔
        p.opensBlock = true ∧ ∀ q ∈ earlier, ¬ q.Drifts) := by
  obtain ⟨around', hvisit'⟩ := hstands.exists_visit hvisit
  obtain ⟨before, after, hpasses⟩ := hvisit'.passes (ofTree_of_collect hfinal).2
  refine ⟨before, after, hpasses, ?_⟩
  -- The run enters the statement and then reaches the declaration.
  obtain ⟨outer, hpast, hrun⟩ := Builder.run_append_eq_ok.1 hpasses.run_past
  obtain ⟨inside, henter, hbetween⟩ := Builder.run_cons_eq_ok.1 hrun
  have hstatement : Passes past p outer inside before := ⟨hpast, henter, between, hbetween⟩
  have hnext := Builder.nextScope_le_run hbetween
  rw [hstatement.nextScope_after] at hnext
  have hmade : ∀ t ∈ p.ownScopes past, t < before.graph.nextScope :=
    fun t ht => Nat.lt_of_lt_of_le (Path.mem_ownScopes.1 ht).2 hnext
  obtain ⟨s, hs, hdeclares⟩ := hpasses.declares_blockName_iff hstands.key?_ne hnames hbound
  rw [← hstands.mem_ownScopes_iff hstatement hbetween hs]
  constructor
  · rintro ⟨⟨t, ht, hdeclared⟩, -⟩
    rw [← (hdeclares t (hmade t ht)).1 hdeclared]
    exact ht
  · intro hmem
    refine ⟨⟨s, hmem, (hdeclares s (hmade s hmem)).2 rfl⟩, ?_⟩
    intro t ht hdeclared
    -- A scope made before the statement is none of its own.
    have hle := (Path.mem_ownScopes.1 hmem).1
    have hts := (hdeclares t (Nat.lt_trans (Nat.lt_of_lt_of_le ht hle) (hmade s hmem))).1 hdeclared
    exact Nat.ne_of_lt (Nat.lt_of_lt_of_le ht hle) hts

end Places

section UsingLoop

open Sample

/-- The head of a loop declares a name with `using`. -/
def usingProgram : Node :=
  program 21 [forOf 0 21 (declaration "using" "x" 5) (identifier "xs" 16)]

/-- The loop. -/
def usingLoop : Path :=
  .child (.root usingProgram) "body" (some 0)
    (forOf 0 21 (declaration "using" "x" 5) (identifier "xs" 16))

/-- The declaration in the head of the loop. -/
def usingHead : Path := .child usingLoop "left" none (declaration "using" "x" 5)

/-- The declared name. -/
def usingName : BoundName :=
  ⟨.string "x", .object [("start", place 11), ("end", place 12)]⟩

theorem declared_in_own_scope_iff_usingHead :
    ∃ final before after, collect (.object usingProgram) = .ok final ∧
      Passes [.enter (.root usingProgram), .enter usingLoop] usingHead before after final ∧
      ((∃ t ∈ usingLoop.ownScopes [.enter (.root usingProgram)],
            Graph.Declares before.graph after.graph final.graph t usingName) ∧
          (∀ t < scopesMade [.enter (.root usingProgram)],
            ¬ Graph.Declares before.graph after.graph final.graph t usingName) ↔
        usingLoop.opensBlock = true ∧ ∀ q ∈ ([] : List Path), ¬ q.Drifts) := by
  obtain ⟨final, hfinal⟩ := exists_eq_ok (e := collect (.object usingProgram)) (by decide +kernel)
  have hloop : (Path.root usingProgram).kids = [] ++ usingLoop :: [] := rfl
  have hhead : usingLoop.kids = [] ++ usingHead :: [.child usingLoop "right" none
      (identifier "xs" 16), .child usingLoop "body" none (node "EmptyStatement" 20 21 [])] := rfl
  have hnames : usingHead.node.blockNames = .ok [usingName] :=
    eq_ok_of_toOption (by decide +kernel)
  obtain ⟨before, after, hpasses, hiff⟩ :=
    declared_in_own_scope_iff hfinal (Visit.root.child hloop)
      (.head (by decide +kernel) hhead (.inr rfl)) hnames List.mem_cons_self
  exact ⟨final, before, after, hfinal, hpasses, hiff⟩

/-- The loop opens no scope, and the module layer binds the name. -/
theorem usingHead_escapes :
    (collect (.object usingProgram)).toOption.map
        (fun b => (b.graph.nextScope, b.graph.binds 2 (.string "x"))) = some (3, true) := by
  decide +kernel

end UsingLoop

end LexicalScopes
